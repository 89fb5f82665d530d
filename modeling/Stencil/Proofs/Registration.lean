import Mathlib.Data.List.Dedup
import Stencil.Proofs.Accounts

/-!
# The parse loop is safe for any grammar

A grammar is any function on contexts. What the loop needs of it is that it moves the cursor by
the operations of contexts only (`Grammar.Operates`), as the grammar of templates does
(`Grammar.template_operates`).

* `Registry.languages_ofHistory`, `Registry.get?_ofHistory`: **whatever the history of
  registrations,** the latest one for a language counts.
* `Context.Operation.advanced`, `Context.Reached.advanced`: one operation, and so any sequence of
  them, moves the cursor on or leaves it where it is.
* `Grammar.Loop`: the loop as it calls the grammar. It ends when the grammar says so or when
  the cursor has not moved.
* `registered_parse`: **the loop makes at most one call more than there are characters, and
  ends with the one end of the file.**
-/

namespace Stencil

/-! ## Histories of registrations -/

namespace Registry

/-- The registry after some registrations, the first of them first. -/
def ofHistory (history : List Grammar) : Registry :=
  history.foldl register {}

theorem ofHistory_concat (history : List Grammar) (g : Grammar) :
    ofHistory (history ++ [g]) = (ofHistory history).register g := by
  simp [ofHistory]

theorem languages_register (r : Registry) (g : Grammar) :
    (r.register g).languages = r.languages.filter (· != g.language) ++ [g.language] := by
  simp only [languages, register, List.map_append, List.map_singleton, List.filter_map]
  rfl

theorem get?_register (r : Registry) (g : Grammar) (language : String) :
    (r.register g).get? language = if g.language = language then some g else r.get? language := by
  unfold get? register
  rw [List.find?_append]
  by_cases hg : g.language = language
  · -- all others of the language are gone
    subst hg
    have hnone : (r.grammars.filter fun other => other.language != g.language).find?
        (fun other => other.language == g.language) = none := by
      rw [List.find?_eq_none]
      intro other hother
      simpa using (List.mem_filter.1 hother).2
    simp [hnone]
  · have hkeep : (r.grammars.filter fun other => other.language != g.language).find?
        (fun other => other.language == language) = r.grammars.find? (fun other => other.language == language) := by
      rw [List.find?_filter]
      congr 1
      funext other
      by_cases hother : other.language = language
      · simp [hother, Ne.symm hg]
      · simp [hother]
    simp [hkeep, hg]

/-- Without duplicates, the last of the languages moves to the end. -/
theorem dedup_concat (ls : List String) (l : String) : (ls ++ [l]).dedup = ls.dedup.filter (· != l) ++ [l] := by
  induction ls with
  | nil => rfl
  | cons a ls ih =>
    rw [List.cons_append]
    by_cases ha : a ∈ ls
    · rw [List.dedup_cons_of_mem ha, List.dedup_cons_of_mem (List.mem_append_left _ ha), ih]
    · rw [List.dedup_cons_of_notMem ha]
      by_cases hl : a = l
      · rw [List.dedup_cons_of_mem (by simp [hl]), ih, List.filter_cons_of_neg (by simp [hl])]
      · rw [List.dedup_cons_of_notMem (by simp [ha, hl]), ih, List.filter_cons_of_pos (by simp [hl])]
        rfl

/-- **The languages of a registry are those that were registered,** each at its latest registration. -/
theorem languages_ofHistory (history : List Grammar) :
    (ofHistory history).languages = (history.map Grammar.language).dedup := by
  induction history using List.reverseRecOn with
  | nil => rfl
  | append_singleton history g ih =>
    rw [ofHistory_concat, languages_register, ih, List.map_append, List.map_singleton, dedup_concat]

/-- **The grammar for a language is the one that was registered last for it.** -/
theorem get?_ofHistory (history : List Grammar) (language : String) :
    (ofHistory history).get? language = history.reverse.find? (·.language == language) := by
  induction history using List.reverseRecOn with
  | nil => rfl
  | append_singleton history g ih =>
    rw [ofHistory_concat, get?_register, ih, List.reverse_append, List.reverse_singleton, List.singleton_append]
    by_cases hg : g.language = language
    · rw [if_pos hg, List.find?_cons_of_pos (by simp [hg])]
    · rw [if_neg hg, List.find?_cons_of_neg (by simp [hg])]

theorem get?_eq_none_iff (history : List Grammar) (language : String) :
    (ofHistory history).get? language = none ↔ language ∉ history.map Grammar.language := by
  rw [get?_ofHistory, List.find?_eq_none, List.mem_map]
  simp only [List.mem_reverse, beq_iff_eq, not_exists, not_and]

/-- Reading fails for lack of a grammar, and for no other reason. -/
theorem parse_eq_error_iff (r : Registry) (options : ParseOptions) (language : String) (t : Text) (e : ParseError) :
    r.parse options language t = .error e ↔ e = .noGrammar language ∧ r.get? language = none := by
  unfold parse run
  cases hget : r.get? language with
  | none =>
    simp only [Except.map, Except.error.injEq, and_true]
    exact eq_comm
  | some g => simp [Except.map]

end Registry

/-! ## Operations of contexts -/

namespace Context

/-- What may be done with a context, one call at a time. -/
inductive Operation where
  | reset
  | consume (n : ℕ)
  | takeBuffer
  | report (d : Diagnostic)
  | takeDiagnostics
  | pushElement (name : Text)
  | popElement
  | markRootParsed
  | enterNested
  | leaveNested
  | reportTooDeep
  | pushFlattened (name : Text) (l : Option Location)
  | truncateFlattened (n : ℕ)

def Operation.apply (c : Context) : Operation → Context
  | reset => c.reset
  | consume n => c.consume n
  | takeBuffer => c.clearBuffer
  | report d => c.report d
  | takeDiagnostics => { c with diagnostics := [] }
  | pushElement name => c.pushElement name
  | popElement => c.popElement
  | markRootParsed => { c with rootParsed := true }
  | enterNested => c.enterNested
  | leaveNested => c.leaveNested
  | reportTooDeep => c.reportTooDeep
  | pushFlattened name l => c.pushFlattened name l
  | truncateFlattened n => c.truncateFlattened n

/-- The second context is the first one after some operations. -/
def Reached (c d : Context) : Prop :=
  ∃ ops : List Operation, d = ops.foldl Operation.apply c

/-- The cursor of the second context stands where that of the first one stands, or further on in the
text. -/
def Advanced (c d : Context) : Prop :=
  ∃ t, c.rest = t ++ d.rest ∧ d.pos = c.pos.after t

variable {c d e : Context}

theorem Advanced.trans (hcd : c.Advanced d) (hde : d.Advanced e) : c.Advanced e := by
  obtain ⟨t, hrest, hpos⟩ := hcd
  obtain ⟨u, hrest', hpos'⟩ := hde
  refine ⟨t ++ u, ?_, ?_⟩
  · rw [hrest, hrest', List.append_assoc]
  · rw [hpos', hpos, Position.after_append]

/-- **No operation moves the cursor back.** -/
theorem Operation.advanced (op : Operation) (c : Context) : c.Advanced (op.apply c) := by
  cases op with
  | consume n => exact ⟨c.rest.take n, (List.take_append_drop n c.rest).symm, rfl⟩
  | reportTooDeep => exact ⟨[], (moved_reportTooDeep c).rest, (moved_reportTooDeep c).pos⟩
  | _ => exact ⟨[], rfl, rfl⟩

/-- **No sequence of operations moves the cursor back.** -/
theorem Reached.advanced (h : c.Reached d) : c.Advanced d := by
  obtain ⟨ops, rfl⟩ := h
  induction ops generalizing c with
  | nil => exact ⟨[], rfl, rfl⟩
  | cons op ops ih => exact (op.advanced c).trans ih

/-- The offset tells whether there is less to read. -/
theorem Advanced.offset_eq_iff (h : c.Advanced d) :
    d.pos.offset = c.pos.offset ↔ ¬ d.rest.length < c.rest.length := by
  obtain ⟨t, hrest, hpos⟩ := h
  rw [hpos, hrest, Position.offset_after, List.length_append]
  omega

theorem Reached.refl (c : Context) : c.Reached c := ⟨[], rfl⟩

theorem Reached.apply (h : c.Reached d) (op : Operation) : c.Reached (op.apply d) := by
  obtain ⟨ops, rfl⟩ := h
  exact ⟨ops ++ [op], by rw [List.foldl_append]; rfl⟩

theorem Reached.trans (h : c.Reached d) (h' : d.Reached e) : c.Reached e := by
  obtain ⟨ops, rfl⟩ := h
  obtain ⟨ops', rfl⟩ := h'
  exact ⟨ops ++ ops', List.foldl_append.symm⟩

theorem Reached.of_operation (op : Operation) (c : Context) : c.Reached (op.apply c) :=
  (Reached.refl c).apply op

/-- The operations are all that happens to a context in a run. -/
theorem reached_account : Account fun c _ _ d => c.Reached d where
  refl := .refl
  trans h h' := h.trans h'
  read c n := ((Reached.of_operation .reset c).apply (.consume n)).apply .takeBuffer
  pushElement c name := .of_operation (.pushElement name) c
  popElement c := .of_operation .popElement c
  pushFlattened c name l := .of_operation (.pushFlattened name l) c
  truncate c n := .of_operation (.truncateFlattened n) c
  tooDeep c := .of_operation .reportTooDeep c
  report c _ _ _ _ := .of_operation (.report _) c
  absent c _ _ _ := .of_operation (.report _) c
  leaf c _ _ _ _ _ _ := .refl c
  branch _ h := h
  trivia _ h := h

end Context

/-! ## Grammars that use the operations -/

/-- The grammar does nothing to a context but by its operations. -/
def Grammar.Operates (g : Grammar) : Prop :=
  ∀ c : Context, c.Reached (g.next c).2

open Context Parse

/-- **The grammar of templates uses the operations of contexts.** -/
theorem Grammar.template_operates : Grammar.template.Operates := by
  intro c
  by_cases hroot : c.rootParsed = true
  · rw [next_rootParsed hroot]
    exact .refl c
  · have hnext : Grammar.template.next c = document (Level.ofRoom c.room).code (Level.ofRoom c.room).element
        { c with rootParsed := true } := by
      show (if c.rootParsed then _ else _ : Parse Node) c = _
      rw [if_neg hroot]; rfl
    have hl := Level.traced_ofRoom c.room
    have hdocument := (document_gives (c := { c with rootParsed := true }) hl.code hl.element).trace
    rw [hnext]
    exact (Reached.of_operation .markRootParsed c).trans (hdocument.accounted reached_account)

/-! ## The loop -/

namespace Grammar

/-- The loop that calls a grammar from a context on: the nodes that it collects, the number of its calls,
and the context in which it ends. It ends when the grammar gives the end of the file, or else when a call
has not moved the cursor; then it adds the end of the file itself. -/
inductive Loop (g : Grammar) : Context → List Node → ℕ → Context → Prop
  | done {c d : Context} {node : Node} (hnext : g.next c = (node, d)) (hkind : node.kind = .endOfFile) :
      Loop g c [node] 1 d
  | stalled {c d : Context} {node : Node} (hnext : g.next c = (node, d)) (hkind : node.kind ≠ .endOfFile)
      (hstay : d.pos.offset = c.pos.offset) : Loop g c [node, .marker .endOfFile (.empty d.pos)] 1 d
  | on {c d e : Context} {node : Node} {nodes : List Node} {calls : ℕ} (hnext : g.next c = (node, d))
      (hkind : node.kind ≠ .endOfFile) (hmove : d.pos.offset ≠ c.pos.offset) (hloop : Loop g d nodes calls e) :
      Loop g c (node :: nodes) (calls + 1) e

variable {g : Grammar} {c d : Context} {nodes : List Node} {calls : ℕ}

/-- Each call but the last one reads a character. -/
theorem Loop.calls_le (hg : g.Operates) (h : g.Loop c nodes calls d) : calls ≤ c.rest.length + 1 := by
  induction h with
  | done | stalled => omega
  | @on c d _ _ _ _ hnext _ hmove _ ih =>
    have hadvanced := (hg c).advanced
    rw [hnext] at hadvanced
    have hless : d.rest.length < c.rest.length := not_not.1 (mt hadvanced.offset_eq_iff.2 hmove)
    omega

/-- **The end of the file is the last node, and no other.** -/
theorem Loop.endOfFile (h : g.Loop c nodes calls d) :
    ∃ init last, nodes = init ++ [last] ∧ last.kind = .endOfFile ∧ ∀ n ∈ init, n.kind ≠ .endOfFile := by
  induction h with
  | @done _ _ node _ hkind => exact ⟨[], node, rfl, hkind, by simp⟩
  | @stalled _ d node _ hkind _ => exact ⟨[node], .marker .endOfFile (.empty d.pos), rfl, rfl, by simpa using hkind⟩
  | @on _ _ _ node _ _ _ hkind _ _ ih =>
    obtain ⟨init, last, rfl, hlast, hinit⟩ := ih
    exact ⟨node :: init, last, rfl, hlast, List.forall_mem_cons.2 ⟨hkind, hinit⟩⟩

theorem rounds_ne_nil (g : Grammar) (c : Context) : (g.rounds c).1 ≠ [] := by
  rw [rounds_eq]
  split
  · simp
  · split <;> simp

/-- A round before others adds its node before theirs. -/
theorem nodes_template_cons {language : String} {round : Round} {more : List Round} {final : Context}
    (hmore : more ≠ []) : (Run.template ⟨language, round :: more, final⟩).nodes =
      round.node :: (Run.template ⟨language, more, final⟩).nodes := by
  obtain ⟨next, more, rfl⟩ := List.exists_cons_of_ne_nil hmore
  unfold Run.template Run.stalled
  rw [List.getLast?_cons_cons]
  rfl

/-- A single round that is not the last one is cut off with the end of the file. -/
theorem nodes_template_singleton (language : String) (round : Round) (final : Context) :
    (Run.template ⟨language, [round], final⟩).nodes =
      round.node :: if round.isLast then [] else [.marker .endOfFile (.empty final.pos)] := by
  unfold Run.template Run.stalled
  by_cases hlast : round.isLast = true
  · simp [hlast]
  · simp [hlast]

/-- **Calling a grammar round by round is that loop.** -/
theorem loop_rounds (hg : g.Operates) (language : String) (c : Context) :
    g.Loop c (Run.template ⟨language, (g.rounds c).1, (g.rounds c).2⟩).nodes (g.rounds c).1.length
      (g.rounds c).2 := by
  -- along the rounds: a round that is followed by others leaves less to read
  induction hn : c.rest.length using Nat.strong_induction_on generalizing c with
  | _ n ih =>
    have hadvanced := (hg c).advanced
    rw [rounds_eq]
    by_cases hlast : (g.round c).isLast = true
    · rw [if_pos hlast, nodes_template_singleton, if_pos hlast]
      exact .done rfl (isLast_round.1 hlast)
    · rw [if_neg hlast]
      have hkind := mt isLast_round.2 hlast
      by_cases hless : (g.next c).2.rest.length < c.rest.length
      · rw [if_pos hless, nodes_template_cons (rounds_ne_nil g _)]
        have hmove : (g.next c).2.pos.offset ≠ c.pos.offset := fun h => hadvanced.offset_eq_iff.1 h hless
        exact .on rfl hkind hmove (ih _ (hn ▸ hless) _ rfl)
      · rw [if_neg hless, nodes_template_singleton, if_neg hlast]
        exact .stalled rfl hkind (hadvanced.offset_eq_iff.2 hless)

end Grammar

/-- **The parse loop is safe for any grammar.** After any registrations, each language is listed once, in the
order of the latest registrations; its grammar is the one registered last for it; and reading fails exactly
for want of a grammar, which the error names. With a grammar that moves the cursor by the operations of
contexts only, as that of templates does, reading `n` characters takes at most `n + 1` calls, and the end of
the file is the last of the nodes and no other, also when the grammar stops reading on. -/
theorem registered_parse (history : List Grammar) :
    (Registry.ofHistory history).languages = (history.map Grammar.language).dedup ∧
    (Registry.ofHistory history).languages.Nodup ∧
    (∀ language, (Registry.ofHistory history).get? language =
      history.reverse.find? (·.language == language)) ∧
    (∀ options language t e, (Registry.ofHistory history).parse options language t = .error e ↔
      e = .noGrammar language ∧ language ∉ history.map Grammar.language) ∧
    Grammar.template.Operates ∧
    ∀ options language t g, (Registry.ofHistory history).get? language = some g → g.Operates →
      ∃ run, (Registry.ofHistory history).run options language t = .ok run ∧
        (Registry.ofHistory history).parse options language t = .ok run.template ∧
        g.Loop (.ofText options t) run.template.nodes run.rounds.length run.final ∧
        run.rounds.length ≤ t.length + 1 ∧
        ∃ init last, run.template.nodes = init ++ [last] ∧ last.kind = .endOfFile ∧
          ∀ n ∈ init, n.kind ≠ .endOfFile := by
  refine ⟨Registry.languages_ofHistory history, ?_, Registry.get?_ofHistory history, ?_,
    Grammar.template_operates, ?_⟩
  · rw [Registry.languages_ofHistory]
    exact List.nodup_dedup _
  · intro options language t e
    rw [Registry.parse_eq_error_iff, Registry.get?_eq_none_iff]
  · intro options language t g hget hg
    have hrun : (Registry.ofHistory history).run options language t = .ok (g.run options t) := by
      rw [Registry.run, hget]
    have hloop := Grammar.loop_rounds hg g.language (.ofText options t)
    refine ⟨g.run options t, hrun, ?_, hloop, hloop.calls_le hg, hloop.endOfFile⟩
    rw [Registry.parse, hrun]
    rfl

/-- A grammar that reads one character at a time and never says that it is done. -/
def Grammar.letters : Grammar :=
  ⟨"letters", Parse.token .literal 1⟩

theorem Grammar.letters_operates : Grammar.letters.Operates :=
  fun _ => ⟨[.reset, .consume 1, .takeBuffer], rfl⟩

theorem registered_parse_letters :
    (Registry.ofHistory [.letters, .template, .letters]).languages = ["kiln", "letters"] ∧
      Grammar.letters.Operates ∧
      ∃ run, (Registry.ofHistory [.letters, .template, .letters]).run {} "letters" ['a', '\n'] = .ok run ∧
        Grammar.letters.Loop (.ofText {} ['a', '\n']) run.template.nodes run.rounds.length run.final ∧
        run.rounds.length ≤ 3 := by
  obtain ⟨hlanguages, -, hget, -, -, hrun⟩ := registered_parse [.letters, .template, .letters]
  obtain ⟨run, heq, -, hloop, hcalls, -⟩ := hrun {} "letters" ['a', '\n'] .letters (by rw [hget]; rfl)
    Grammar.letters_operates
  exact ⟨by rw [hlanguages]; rfl, Grammar.letters_operates, run, heq, hloop, hcalls⟩

end Stencil
