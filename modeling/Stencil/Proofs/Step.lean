import Mathlib.Data.Nat.Notation
import Stencil.Grammar.Level

/-!
# Reasoning about parsing steps

`Ends p c Q` says that the step `p`, started in the context `c`, ends with a
result and a context that fulfil `Q`. A sequence of steps is taken apart with
`Ends.bind`, a loop with an invariant.

* `Ends.many`: what every turn of a loop keeps holds when the loop ends.
* `Ends.many_exit`: **a loop whose turns all read on ends only because its step
  gave no node**, never because of the guard in `Parse.many`.
-/

namespace Stencil.Parse

variable {α β σ : Type}

/-- Steps are run one after the other. -/
theorem bind_apply (p : Parse α) (f : α → Parse β) (c : Context) : (p >>= f) c = f (p c).1 (p c).2 := rfl

theorem pure_apply (a : α) (c : Context) : (pure a : Parse α) c = (a, c) := rfl

theorem get_apply (c : Context) : (get : Parse Context) c = (c, c) := rfl

theorem modify_apply (g : Context → Context) (c : Context) : (modify g : Parse Unit) c = ((), g c) := rfl

/-- Started in `c`, the step ends with a result and a context in `Q`. -/
def Ends (p : Parse α) (c : Context) (Q : α → Context → Prop) : Prop :=
  Q (p c).1 (p c).2

namespace Ends

variable {c : Context} {Q : α → Context → Prop} {R : β → Context → Prop}

/-- A sequence of steps ends as its second step does wherever the first one ends. -/
theorem bind {p : Parse α} {f : α → Parse β} (hp : Ends p c Q)
    (hf : ∀ a d, Q a d → Ends (f a) d R) : Ends (p >>= f) c R :=
  hf _ _ hp

/-- The same where the first step is known. -/
theorem bind_eq {p : Parse α} {f : α → Parse β} {a : α} {d : Context} (hp : p c = (a, d))
    (hf : Ends (f a) d R) : Ends (p >>= f) c R := by
  unfold Ends
  rw [bind_apply, hp]; exact hf

/-- What is known of the end holds of the result. -/
theorem of_eq {p : Parse α} {a : α} {d : Context} (h : Ends p c Q) (hp : p c = (a, d)) : Q a d := by
  unfold Ends at h
  rwa [hp] at h

theorem get_bind {f : Context → Parse β} (h : Ends (f c) c R) : Ends (get >>= f) c R := h

theorem modify_bind {g : Context → Context} {f : Unit → Parse β} (h : Ends (f ()) (g c) R) :
    Ends (modify g >>= f) c R := h

theorem pure {a : α} (h : Q a c) : Ends (pure a) c Q := h

theorem and {p : Parse α} {Q' : α → Context → Prop} (h : Ends p c Q) (h' : Ends p c Q') :
    Ends p c fun a d => Q a d ∧ Q' a d :=
  ⟨h, h'⟩

/-- Less may be said of the end. -/
theorem imp {p : Parse α} {Q' : α → Context → Prop} (hp : Ends p c Q)
    (h : ∀ a d, Q a d → Q' a d) : Ends p c Q' :=
  h _ _ hp

/-- **What every turn of a loop keeps holds when the loop ends**, whichever way
it ends. -/
theorem many {step : σ → Parse (Option (Node × σ))} (I : List Node → σ → Context → Prop)
    (hnone : ∀ ns s c d, I ns s c → step s c = (none, d) → I ns s d)
    (hsome : ∀ ns s c n s' d, I ns s c → step s c = (some (n, s'), d) → I (ns ++ [n]) s' d)
    {s : σ} (h : I [] s c) : Ends (Parse.many step s) c fun r d => I r.1 r.2 d := by
  -- the nodes of the turns before are carried along
  have key : ∀ s c ns, I ns s c →
      I (ns ++ (Parse.many step s c).1.1) (Parse.many step s c).1.2 (Parse.many step s c).2 := by
    intro s c
    induction s, c using Parse.many.induct step with
    | case1 s c d hstep =>
      intro ns hI
      rw [Parse.many, hstep]; simpa using hnone ns s c d hI hstep
    | case2 s c n s' d hstep hlt rest last e hrest ih =>
      intro ns hI
      have := ih (ns ++ [n]) (hsome ns s c n s' d hI hstep)
      rw [Parse.many, hstep]
      simp only [dif_pos hlt]
      simpa [hrest] using this
    | case3 s c n s' d hstep hlt =>
      intro ns hI
      rw [Parse.many, hstep]
      simpa [hlt] using hsome ns s c n s' d hI hstep
  simpa [Ends] using key s c [] h

end Ends

/-- Every turn of a loop that gives a node leaves less to read. -/
def GoesOn (step : σ → Parse (Option (Node × σ))) : Prop :=
  ∀ s c n s' d, step s c = (some (n, s'), d) → d.rest.length < c.rest.length

/-- **A loop whose turns all read on ends only because its step gave no node.**
What every turn keeps holds before that last call. -/
theorem Ends.many_exit {step : σ → Parse (Option (Node × σ))} (hgo : GoesOn step)
    (I : List Node → σ → Context → Prop)
    (hsome : ∀ ns s c n s' d, I ns s c → step s c = (some (n, s'), d) → I (ns ++ [n]) s' d)
    {s : σ} {c : Context} (h : I [] s c) :
    Ends (Parse.many step s) c fun r d => ∃ e, I r.1 r.2 e ∧ step r.2 e = (none, d) := by
  have key : ∀ s c ns, I ns s c → ∃ e, I (ns ++ (Parse.many step s c).1.1) (Parse.many step s c).1.2 e ∧
      step (Parse.many step s c).1.2 e = (none, (Parse.many step s c).2) := by
    intro s c
    induction s, c using Parse.many.induct step with
    | case1 s c d hstep =>
      intro ns hI
      rw [Parse.many, hstep]; exact ⟨c, by simpa using hI, hstep⟩
    | case2 s c n s' d hstep hlt rest last e hrest ih =>
      intro ns hI
      have := ih (ns ++ [n]) (hsome ns s c n s' d hI hstep)
      rw [Parse.many, hstep]
      simp only [dif_pos hlt]
      simpa [hrest] using this
    | case3 s c n s' d hstep hlt => exact absurd (hgo s c n s' d hstep) hlt
  simpa [Ends] using key s c [] h

/-! ## Loops without a state -/

section Stateless

variable {step : Parse (Option Node)} {c d : Context}

/-- A turn of a loop without a state, as the general loop takes it. -/
theorem stateless_none (h : (do return (← step).map fun n => (n, ()) : Parse (Option (Node × Unit))) c =
    (none, d)) : step c = (none, d) := by
  have h1 : (step c).1.map (fun n => (n, ())) = none := congrArg Prod.fst h
  have h2 : (step c).2 = d := congrArg Prod.snd h
  exact Prod.ext (Option.map_eq_none_iff.1 h1) h2

/-- A turn that gives a node comes from a step that gives it. -/
theorem stateless_some {n : Node} {u : Unit}
    (h : (do return (← step).map fun n => (n, ()) : Parse (Option (Node × Unit))) c = (some (n, u), d)) :
    step c = (some n, d) := by
  have h1 : (step c).1.map (fun n => (n, ())) = some (n, u) := congrArg Prod.fst h
  have h2 : (step c).2 = d := congrArg Prod.snd h
  obtain ⟨m, hm, hn⟩ := Option.map_eq_some_iff.1 h1
  simp only [Prod.mk.injEq] at hn
  exact Prod.ext (hn.1 ▸ hm) h2

/-- **Loop rule**: what every turn keeps holds of the nodes so far, and so of all of them. -/
theorem Ends.manyNodes (I : List Node → Context → Prop)
    (hstep : ∀ ns c, I ns c → Ends step c fun r d => I (ns ++ r.toList) d) (h : I [] c) :
    Ends (Parse.manyNodes step) c I := by
  refine Ends.bind (Ends.many (fun ns _ d => I ns d) ?_ ?_ h) fun r d hr => hr
  · intro ns s c d hI hs
    have := hstep ns c hI
    unfold Ends at this; rw [stateless_none hs] at this; simpa using this
  · intro ns s c n s' d hI hs
    have := hstep ns c hI
    unfold Ends at this; rw [stateless_some hs] at this; simpa using this

/-- Every turn of a loop without a state that gives a node leaves less to read. -/
def NodesGoOn (step : Parse (Option Node)) : Prop :=
  ∀ c n d, step c = (some n, d) → d.rest.length < c.rest.length

/-- A loop that goes on ends with the first turn that gives no node. -/
theorem Ends.manyNodes_exit (hgo : NodesGoOn step) (I : List Node → Context → Prop)
    (hsome : ∀ ns c n d, I ns c → step c = (some n, d) → I (ns ++ [n]) d) (h : I [] c) :
    Ends (Parse.manyNodes step) c fun ns d => ∃ e, I ns e ∧ step e = (none, d) := by
  refine Ends.bind (Ends.many_exit (fun _ c n _ d hs => hgo c n d (stateless_some hs))
    (fun ns _ d => I ns d) (fun ns _ c n _ d hI hs => hsome ns c n d hI (stateless_some hs)) h) ?_
  rintro ⟨ns, _⟩ d ⟨e, he, hs⟩
  exact ⟨e, he, stateless_none hs⟩

/-- A loop whose first turn gives nothing. -/
theorem manyNodes_none (h : step c = (none, d)) : manyNodes step c = ([], d) := by
  have hturn : (do return (← step).map fun n => (n, ()) : Parse (Option (Node × Unit))) c = (none, d) := by
    show ((step c).1.map _, (step c).2) = _
    rw [h]; rfl
  show ((many _ () c).1.1, (many _ () c).2) = _
  rw [many, hturn]

/-- A loop whose first turn gives a node and reads on. -/
theorem manyNodes_some {n : Node} (h : step c = (some n, d)) (hlt : d.rest.length < c.rest.length) :
    manyNodes step c = (n :: (manyNodes step d).1, (manyNodes step d).2) := by
  have hturn : (do return (← step).map fun n => (n, ()) : Parse (Option (Node × Unit))) c =
      (some (n, ()), d) := by
    show ((step c).1.map _, (step c).2) = _
    rw [h]; rfl
  show ((many _ () c).1.1, (many _ () c).2) = _
  rw [many, hturn]
  simp only [dif_pos hlt]
  rfl

/-- Some turns of a loop without a state, with the nodes that they give. -/
inductive Runs (step : Parse (Option Node)) : Context → List Node → Context → Prop
  | refl (c : Context) : Runs step c [] c
  | turn {c d e : Context} {n : Node} {ns : List Node} :
      step c = (some n, d) → Runs step d ns e → Runs step c (n :: ns) e

/-- Turns may be followed by more turns. -/
theorem Runs.trans {ns ms : List Node} {e : Context} (h : Runs step c ns d) (h' : Runs step d ms e) :
    Runs step c (ns ++ ms) e := by
  induction h with
  | refl => exact h'
  | turn hstep _ ih => exact .turn hstep (ih h')

/-- **A loop gives the nodes of its turns**, if all turns read on. -/
theorem Runs.manyNodes_eq (hgo : NodesGoOn step) {ns : List Node} {e : Context} (h : Runs step c ns d)
    (hend : step d = (none, e)) : manyNodes step c = (ns, e) := by
  induction h with
  | refl => exact manyNodes_none hend
  | turn hstep _ ih => rw [manyNodes_some hstep (hgo _ _ _ hstep), ih hend]

end Stateless

end Stencil.Parse
