import Stencil.Proofs.Pieces
import Stencil.Proofs.Step

/-!
# What a parsing step does to the cursor

`Moved c t d`: from the context `c` to the context `d` the cursor has moved on
over the text `t`. `Reads c ps d`: it has, and the pieces `ps` lie edge to edge
over that text. Every operation on a context other than `Context.read` leaves the
cursor where it is.
-/

namespace Stencil

namespace Context

/-- From `c` to `d` the cursor has moved on over `t`. What is set for the whole
template stays as it is. -/
structure Moved (c : Context) (t : Text) (d : Context) : Prop where
  rest : c.rest = t ++ d.rest
  before : d.before = t.reverse ++ c.before
  pos : d.pos = c.pos.after t
  transition : d.transition = c.transition
  rootParsed : d.rootParsed = c.rootParsed
  depth : d.depth = c.depth
  maxDepth : d.maxDepth = c.maxDepth

variable {c d e : Context} {t u : Text}

theorem Moved.refl (c : Context) : c.Moved [] c := ⟨rfl, rfl, rfl, rfl, rfl, rfl, rfl⟩

/-- What was read first stands before what was read next. -/
theorem Moved.trans (h : c.Moved t d) (h' : d.Moved u e) : c.Moved (t ++ u) e where
  rest := by rw [h.rest, h'.rest, List.append_assoc]
  before := by rw [h'.before, h.before]; simp
  pos := by rw [h'.pos, h.pos, Position.after_append]
  transition := h'.transition.trans h.transition
  rootParsed := h'.rootParsed.trans h.rootParsed
  depth := h'.depth.trans h.depth
  maxDepth := h'.maxDepth.trans h.maxDepth

/-- Steps that read nothing may follow. -/
theorem Moved.trans_stay (h : c.Moved t d) (h' : d.Moved [] e) : c.Moved t e := by
  simpa using h.trans h'

/-- Where nothing was read, all of it is still to come. -/
theorem Moved.rest_eq (h : c.Moved [] d) : d.rest = c.rest := h.rest.symm

/-- The cursor does not go back. -/
theorem Moved.offset_le (h : c.Moved t d) : c.pos.offset ≤ d.pos.offset := by
  rw [h.pos, Position.offset_after]; omega

/-- Reports are made without reading on. -/
theorem moved_report (c : Context) (x : Diagnostic) : c.Moved [] (c.report x) :=
  ⟨rfl, rfl, rfl, rfl, rfl, rfl, rfl⟩

theorem moved_reportTooDeep (c : Context) : c.Moved [] c.reportTooDeep := by
  unfold reportTooDeep; split
  · exact .refl c
  · exact ⟨rfl, rfl, rfl, rfl, rfl, rfl, rfl⟩

theorem moved_pushElement (c : Context) (name : Text) : c.Moved [] (c.pushElement name) :=
  ⟨rfl, rfl, rfl, rfl, rfl, rfl, rfl⟩

theorem moved_popElement (c : Context) : c.Moved [] c.popElement := ⟨rfl, rfl, rfl, rfl, rfl, rfl, rfl⟩

theorem moved_pushFlattened (c : Context) (name : Text) (l : Option Location) :
    c.Moved [] (c.pushFlattened name l) := ⟨rfl, rfl, rfl, rfl, rfl, rfl, rfl⟩

/-- Elements that are forgotten leave the cursor where it is. -/
theorem moved_truncateFlattened (c : Context) (n : ℕ) : c.Moved [] (c.truncateFlattened n) :=
  ⟨rfl, rfl, rfl, rfl, rfl, rfl, rfl⟩

/-- Reading on takes what comes next, up to the end of the text. -/
theorem moved_read (c : Context) (n : ℕ) : c.Moved (c.rest.take n) (c.read n).2 :=
  ⟨(List.take_append_drop n c.rest).symm, rfl, rfl, rfl, rfl, rfl, rfl⟩

/-- A token covers the text it was read from. -/
theorem read_location (c : Context) (n : ℕ) : (c.read n).1 = Location.ofText c.pos (c.rest.take n) := by
  simp [read, consume, location, Location.ofText, reset, Position.offset_after]

/-- The pieces lie edge to edge over the text between two contexts. -/
def Reads (c : Context) (ps : List Piece) (d : Context) : Prop :=
  ∃ ts : List Text, ps.map Piece.location = Location.tile c.pos ts ∧ c.Moved ts.flatten d

variable {ps qs : List Piece}

theorem Reads.stay (h : c.Moved [] d) : c.Reads [] d := ⟨[], rfl, h⟩

/-- One piece that stands at the cursor. -/
theorem Reads.single {p : Piece} (hp : p.location = Location.ofText c.pos t) (h : c.Moved t d) :
    c.Reads [p] d :=
  ⟨[t], by simp [hp], by simpa using h⟩

/-- Pieces that are read one after the other. -/
theorem Reads.trans (h : c.Reads ps d) (h' : d.Reads qs e) : c.Reads (ps ++ qs) e := by
  obtain ⟨ts, hts, hm⟩ := h
  obtain ⟨us, hus, hm'⟩ := h'
  refine ⟨ts ++ us, ?_, by simpa using hm.trans hm'⟩
  rw [List.map_append, hts, hus, Location.tile_append, hm.pos]

/-- Steps without pieces may follow. -/
theorem Reads.trans_stay (h : c.Reads ps d) (h' : d.Moved [] e) : c.Reads ps e := by
  simpa using h.trans (.stay h')

theorem Reads.moved (h : c.Reads ps d) : ∃ t, c.Moved t d := by
  obtain ⟨ts, -, hm⟩ := h
  exact ⟨_, hm⟩

/-- A node that lies over the text between two contexts has that text. -/
theorem Reads.source {n : Node} (h : c.Reads n.pieces d) (hmoved : c.Moved t d) : n.source = t := by
  obtain ⟨ts, hlocs, hts⟩ := h
  have hrest := hts.rest
  rw [hmoved.rest] at hrest
  rw [List.append_cancel_right hrest, Node.source_eq_pieces, ← Location.flatMap_text_tile c.pos ts, ← hlocs,
    List.flatMap_map]

end Context

namespace Parse

open Context

/-! ## Single steps -/

variable {c : Context}

theorem report_moved (p : Problem) (l : Location) : Ends (report p l) c fun _ d => c.Moved [] d :=
  c.moved_report _

theorem reportHere_moved (p : Problem) : Ends (reportHere p) c fun _ d => c.Moved [] d :=
  c.moved_report _

/-- What is read is known by its place and its text. -/
theorem read_ends (n : ℕ) : Ends (read n) c fun l d =>
    l = Location.ofText c.pos (c.rest.take n) ∧ c.Moved (c.rest.take n) d :=
  ⟨c.read_location n, c.moved_read n⟩

/-- A token stands where it was read, without blanks. -/
theorem token_ends (k : Kind) (n : ℕ) : Ends (token k n) c fun x d =>
    x = .token k (.ofText c.pos (c.rest.take n)) ∧ c.Moved (c.rest.take n) d := by
  refine Ends.bind (read_ends n) ?_
  rintro l d ⟨rfl, hm⟩
  exact ⟨rfl, hm⟩

/-- A token is one piece. -/
theorem token_reads (k : Kind) (n : ℕ) : Ends (token k n) c fun x d => c.Reads x.pieces d := by
  refine (token_ends k n).imp ?_
  rintro x d ⟨rfl, hm⟩
  exact .single rfl hm

/-- A token that is not there is reported, and nothing is read for it. -/
theorem absent_moved (k : Kind) (w : Wanted) : Ends (absent k w) c fun _ d => c.Moved [] d :=
  Ends.get_bind (Ends.bind (reportHere_moved _) fun _ _ hd => hd)

/-! ## Repeated steps -/

/-- What each step keeps, a sequence of them keeps. -/
theorem Ends.forM {α : Type} {f : α → Parse Unit} {I : Context → Prop}
    (hf : ∀ a c, I c → Ends (f a) c fun _ d => I d) (as : List α) (h : I c) :
    Ends (as.forM f) c fun _ d => I d := by
  induction as generalizing c with
  | nil => exact h
  | cons a as ih => exact Ends.bind (hf a c h) fun _ d hd => ih hd

/-- A sequence of steps that read nothing reads nothing. -/
theorem forM_moved {α : Type} {f : α → Parse Unit} (hf : ∀ a c, Ends (f a) c fun _ d => c.Moved [] d)
    (as : List α) : Ends (as.forM f) c fun _ d => c.Moved [] d :=
  Ends.forM (fun a _ h => (hf a _).imp fun _ _ hd => h.trans_stay hd) as (.refl c)

end Parse

end Stencil
