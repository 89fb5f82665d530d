import Mathlib.Algebra.Ring.Int.Defs
import Stencil.Editor.SemanticToken
import Stencil.Proofs.Decoding
import Stencil.Proofs.Provenance
import Stencil.Proofs.LineSpans
import Stencil.Syntax.Walk

/-!
# Arithmetic that can fail

Numbers have no bound in the definitions, and a difference stops at zero. A machine has
words: a sum may not fit, and a difference below zero is a fault. Here the parts of the
program that count are written once more with words (`Word.add?`, `Word.sub?`,
`Word.mul?`, `Word.signed?`), with the assertions on locations and with indices that are
looked up; a fault is `none`. Each of them is shown to give what the definitions give.

* `Code.flatBody?_eq`, `Code.group?_eq`: the counts of open brackets.
* `Location.Stretch.slice?_eq`: locations, cut from the source.
* `SemanticToken.collect?_eq`, `SemanticToken.encode?_eq`, `SemanticToken.room?_eq`: tokens
  for an editor.
* `SourceMap.encode?_eq`: the numbers of a source map.
-/

namespace Stencil

/-! ## Words -/

namespace Word

/-- The sum of two words. -/
def add? (a b : ℕ) : Option ℕ :=
  if a + b < 2 ^ 64 then some (a + b) else none

/-- The difference of two words. -/
def sub? (a b : ℕ) : Option ℕ :=
  if b ≤ a then some (a - b) else none

/-- The product of two words. -/
def mul? (a b : ℕ) : Option ℕ :=
  if a * b < 2 ^ 64 then some (a * b) else none

/-- A number as a signed word. -/
def signed? (n : ℤ) : Option ℤ :=
  if -2 ^ 63 ≤ n ∧ n < 2 ^ 63 then some n else none

/-- An addition that fits is made. -/
theorem add?_eq {a b : ℕ} (h : a + b < 2 ^ 64) : add? a b = some (a + b) := if_pos h

/-- A subtraction that stays at zero or above is made. -/
theorem sub?_eq {a b : ℕ} (h : b ≤ a) : sub? a b = some (a - b) := if_pos h

theorem mul?_eq {a b : ℕ} (h : a * b < 2 ^ 64) : mul? a b = some (a * b) := if_pos h

theorem signed?_eq {n : ℤ} (h : n.natAbs < 2 ^ 63) : signed? n = some n := if_pos (by omega)

/-- A list is gone through to its end if there is no fault at any of its members. -/
theorem mapM_eq_map {α β : Type} {f : α → Option β} {g : α → β} {l : List α} (h : ∀ a ∈ l, f a = some (g a)) :
    l.mapM f = some (l.map g) := by
  induction l with
  | nil => rfl
  | cons a l ih =>
    rw [List.mapM_cons, h a List.mem_cons_self, ih fun b hb => h b (List.mem_cons_of_mem a hb)]
    rfl

end Word

/-! ## Brackets of embedded code -/

namespace Code

/-- The extent of a flat body, its open braces counted in a word. -/
def flatBody? (opened : ℕ) (t : Text) : Option Extent :=
  match t with
  | [] => some ⟨0, []⟩
  | c :: rest =>
    if c = '}' && opened == 0 then some ⟨0, []⟩
    else
      match h : skipped? (c :: rest) with
      | some e =>
        have := length_drop_skipped h
        (flatBody? opened ((c :: rest).drop e.length)).map e.append
      | none =>
        if c = '{' then (Word.add? opened 1).bind fun n => (flatBody? n rest).map (.after 1)
        else if c = '}' then (Word.sub? opened 1).bind fun n => (flatBody? n rest).map (.after 1)
        else (flatBody? opened rest).map (.after 1)
termination_by t.length
decreasing_by
  · assumption
  all_goals simp

/-- The brace that closes a body ends it, so a brace is counted off only while one is open. -/
theorem flatBody?_eq {opened : ℕ} {t : Text} (h : opened + t.length < 2 ^ 64) :
    flatBody? opened t = some (flatBody opened t) := by
  fun_induction flatBody opened t with
  | case1 opened => rw [flatBody?]
  | case2 opened c rest hclose => rw [flatBody?, if_pos hclose]
  | case3 opened c rest hclose e hskip hlt ih =>
    rw [flatBody?, if_neg hclose]
    split
    next e' hskip' =>
      obtain rfl : e = e' := Option.some.inj (hskip.symm.trans hskip')
      rw [ih (by omega)]; rfl
    next hnone => rw [hskip] at hnone; cases hnone
  | case4 opened rest hclose hskip ih =>
    rw [List.length_cons] at h
    rw [flatBody?, if_neg hclose]
    split
    next e hsome => rw [hskip] at hsome; cases hsome
    next => rw [if_pos rfl, Word.add?_eq (by omega), Option.bind_some, ih (by omega)]; rfl
  | case5 opened rest hclose hskip hopen ih =>
    rw [List.length_cons] at h
    -- a brace that does not end the body closes an inner one
    have hpos : 1 ≤ opened := by
      simp only [decide_true, Bool.true_and, beq_iff_eq] at hclose
      omega
    rw [flatBody?, if_neg hclose]
    split
    next e hsome => rw [hskip] at hsome; cases hsome
    next =>
      rw [if_neg hopen, if_pos rfl, Word.sub?_eq hpos, Option.bind_some, ih (by omega)]; rfl
  | case6 opened c rest hclose hskip hopen hend ih =>
    rw [List.length_cons] at h
    rw [flatBody?, if_neg hclose]
    split
    next e hsome => rw [hskip] at hsome; cases hsome
    next => rw [if_neg hopen, if_neg hend, ih (by omega)]; rfl

/-- The extent of a bracketed group from its opening bracket on, the brackets that stand
open counted in a word. -/
def group? (opening closing : Char) (depth : ℕ) (t : Text) : Option Extent :=
  match t with
  | [] => some ⟨0, [.group opening]⟩
  | c :: rest =>
    if isQuote c then
      (group? opening closing depth (rest.drop (stringRest c rest).length)).map
        (Extent.append (.after 1 (stringRest c rest)))
    else if c = opening then
      (Word.add? depth 1).bind fun n => (group? opening closing n rest).map (.after 1)
    else if c = closing then
      (Word.sub? depth 1).bind fun n =>
        if n = 0 then some ⟨1, []⟩ else (group? opening closing n rest).map (.after 1)
    else (group? opening closing depth rest).map (.after 1)
termination_by t.length
decreasing_by
  · simp only [List.length_drop, List.length_cons]; omega
  all_goals simp

/-- Inside of a group its own bracket stands open, beside the inner ones. -/
theorem group?_rest {opening closing : Char} {inner : ℕ} {t : Text} (h : inner + 1 + t.length < 2 ^ 64) :
    group? opening closing (inner + 1) t = some (groupRest opening closing inner t) := by
  fun_induction groupRest opening closing inner t with
  | case1 inner => rw [group?]
  | case2 inner c rest hquote e ih =>
    rw [List.length_cons] at h
    rw [group?, if_pos hquote, ih (by rw [List.length_drop]; omega)]; rfl
  | case3 inner rest hquote ih =>
    rw [List.length_cons] at h
    rw [group?, if_neg hquote, if_pos rfl, Word.add?_eq (by omega), Option.bind_some, ih (by omega)]; rfl
  | case4 rest hquote hopen =>
    rw [group?, if_neg hquote, if_neg hopen, if_pos rfl, Word.sub?_eq (by omega), Option.bind_some, if_pos rfl]
  | case5 inner rest hinner hquote hopen ih =>
    rw [List.length_cons] at h
    -- one inner bracket less, and the group's own still open
    have hone : inner + 1 - 1 = inner - 1 + 1 := by omega
    rw [group?, if_neg hquote, if_neg hopen, if_pos rfl, Word.sub?_eq (by omega), Option.bind_some, hone,
      if_neg (by omega), ih (by omega)]
    rfl
  | case6 inner c rest hquote hopen hclose ih =>
    rw [List.length_cons] at h
    rw [group?, if_neg hquote, if_neg hopen, if_neg hclose, ih (by omega)]; rfl

/-- **Groups** are counted without overflow. -/
theorem group?_eq {opening closing : Char} {t : Text} (hclosing : closing? opening = some closing)
    (h : t.length + 1 < 2 ^ 64) :
    group? opening closing 0 (opening :: t) = some (.after 1 (groupRest opening closing 0 t)) := by
  have hquote : ¬ isQuote opening = true := by
    unfold closing? at hclosing
    split at hclosing
    · decide
    · decide
    · cases hclosing
  rw [group?, if_neg hquote, if_pos rfl, Word.add?_eq (by omega), Option.bind_some, group?_rest (by omega)]
  rfl

end Code

/-! ## Locations -/

/-- The counters of a position are within what `n` characters can bring them to. -/
def Position.Within (n : ℕ) (p : Position) : Prop :=
  p.offset ≤ n ∧ p.byte ≤ 4 * n ∧ p.line ≤ n ∧ p.col ≤ n

theorem Position.Within.mono {m n : ℕ} {p : Position} (h : p.Within m) (hmn : m ≤ n) : p.Within n := by
  unfold Within at h ⊢
  omega

/-- A position leaves a bound no further than by the characters passed. -/
theorem Position.Within.after {n : ℕ} {p : Position} (h : p.Within n) (t : Text) :
    (p.after t).Within (n + t.length) := by
  induction t generalizing n p with
  | nil => exact h
  | cons c t ih =>
    have hnext : (p.next c).Within (n + 1) := by
      have := c.utf8Size_le_four
      unfold Within Position.next at *
      split <;> simp only <;> omega
    rw [Position.after_cons, List.length_cons, Nat.add_comm t.length, ← Nat.add_assoc]
    exact ih hnext

/-- A text brings the counters no further than its length. -/
theorem Position.within_after (t : Text) : (({} : Position).after t).Within t.length := by
  have hstart : ({} : Position).Within 0 := by simp [Within]
  simpa using hstart.after t

/-- Positions do not go back. -/
theorem Position.not_isBefore_after (p : Position) (t : Text) : (p.after t).isBefore p = false := by
  cases t with
  | nil => simp [isBefore]
  | cons c t =>
    have := p.offset_after (c :: t)
    rw [List.length_cons] at this
    simp only [isBefore, Bool.or_eq_false_iff, Bool.and_eq_false_iff, decide_eq_false_iff_not,
      beq_eq_false_iff_ne]
    omega

namespace LineSpan

/-- The length of a span in words. -/
def length? (s : LineSpan) : Option ℕ :=
  Word.sub? s.endCol s.startCol

/-- No span ends before it starts. -/
theorem startCol_le_endCol {line col byte : ℕ} {ps : List Text} :
    ∀ s ∈ ofPieces line col byte ps, s.startCol ≤ s.endCol := by
  induction ps generalizing line col byte with
  | nil => intro s hs; cases hs
  | cons p ps ih =>
    rintro s (_ | ⟨_, hs⟩)
    · exact Nat.le_add_right _ _
    · exact ih s hs

theorem length?_eq {s : LineSpan} (h : s.startCol ≤ s.endCol) : s.length? = some s.length :=
  Word.sub?_eq h

/-- A span that is not empty has a character of its own. -/
theorem length_filter_ofPieces_le (line col byte : ℕ) (ps : List Text) :
    ((ofPieces line col byte ps).filter fun s => !s.isEmpty).length ≤ ps.flatten.length := by
  induction ps generalizing line col byte with
  | nil => exact Nat.le_refl _
  | cons p ps ih =>
    have hps := ih (line + 1) 0 (byte + p.bytes + 1)
    rw [ofPieces, List.filter_cons, List.flatten_cons, List.length_append]
    split
    next hp =>
      have hne : p.length ≠ 0 := by simpa [isEmpty] using hp
      rw [List.length_cons]
      omega
    next => omega

end LineSpan

/-- Cutting a text at its line feeds adds nothing to it. -/
theorem Text.length_flatten_split_le (divider : Char) (t : Text) :
    (t.split divider).flatten.length ≤ t.length := by
  induction t with
  | nil => exact Nat.le_refl _
  | cons c t ih =>
    rw [Text.split]
    split
    · rw [List.flatten_cons, List.nil_append, List.length_cons]
      omega
    · split
      next hsplit => exact absurd hsplit (split_ne_nil divider t)
      next p ps hsplit =>
        rw [hsplit, List.flatten_cons] at ih
        rw [List.flatten_cons, List.cons_append, List.length_cons, List.length_cons]
        omega

namespace Location

/-- Makes a location, if its ends are in order and its text is as long as they say. -/
def new? (start stop : Position) (t : Text) : Option Location :=
  if stop.isBefore start then none
  else (Word.sub? stop.offset start.offset).bind fun n =>
    if t.length = n then some ⟨start, stop, t⟩ else none

/-- The location between two positions of a text, if they lie in it. -/
def slice? (t : Text) (start stop : Position) : Option Location :=
  if start.offset ≤ stop.offset ∧ stop.offset ≤ t.length then
    new? start stop ((t.take stop.offset).drop start.offset)
  else none

/-- The length of a location in words. -/
def length? (l : Location) : Option ℕ :=
  Word.sub? l.stop.offset l.start.offset

namespace Stretch

variable {t : Text} {l : Location} (h : l.Stretch t)

include h

/-- **A stretch of a text can be cut from it.** -/
theorem slice?_eq : slice? t l.start l.stop = some l := by
  obtain ⟨u, v, w, rfl, rfl⟩ := h
  have hstart : (({} : Position).after u).offset = u.length := by rw [Position.offset_after]; exact Nat.zero_add _
  have hstop : ((({} : Position).after u).after v).offset = u.length + v.length := by
    rw [Position.offset_after, hstart]
  have htext : ((u ++ v ++ w).take (u.length + v.length)).drop u.length = v := by
    rw [← List.length_append, List.take_left, List.drop_left]
  simp only [slice?, new?, ofText, hstart, hstop, htext, Position.not_isBefore_after]
  rw [if_pos (by simp), if_neg (by simp), Word.sub?_eq (by omega), Option.bind_some, if_pos (by omega)]

theorem length?_eq : l.length? = some l.length := by
  obtain ⟨u, v, w, -, rfl⟩ := h
  exact Word.sub?_eq (by simp [ofText, Position.offset_after])

/-- Both ends of a location are within the length of the text. -/
theorem within : l.start.Within t.length ∧ l.stop.Within t.length := by
  obtain ⟨u, v, w, rfl, rfl⟩ := h
  refine ⟨(Position.within_after u).mono (by simp), ?_⟩
  show ((({} : Position).after u).after v).Within _
  rw [← Position.after_append]
  exact (Position.within_after (u ++ v)).mono (by simp)

/-- So are the spans of its lines. -/
theorem lines_within : ∀ s ∈ l.lines, s.length? = some s.length ∧
    s.line ≤ t.length ∧ s.endCol ≤ t.length ∧ s.endByte ≤ 4 * t.length := by
  intro s hs
  have hlength := LineSpan.length?_eq (LineSpan.startCol_le_endCol s hs)
  obtain ⟨u, v, w, rfl, rfl⟩ := h
  rw [lines_eq_scan] at hs
  -- the span stops where the text up to `u ++ a` stops
  obtain ⟨a, b, rfl, hline, hcol, hbyte⟩ := LineSpan.stopsAt_of_mem_scan (LineSpan.stopsAt_opened _) hs
  have hstop := (Position.within_after (u ++ a)).mono
    (show (u ++ a).length ≤ (u ++ (a ++ b) ++ w).length by simp only [List.length_append]; omega)
  rw [Position.after_append] at hstop
  obtain ⟨-, hbytes, hlines, hcols⟩ := hstop
  rw [hline, hcol, hbyte]
  exact ⟨hlength, hlines, hcols, hbytes⟩

end Stretch

end Location

/-! ## Tokens for an editor -/

namespace SemanticToken

/-- The tokens of a location, with the lengths of their spans in words. -/
def ofLocation? (kind : TokenClass) (l : Location) : Option (List SemanticToken) :=
  (l.lines.filter fun span => !span.isEmpty).mapM fun span =>
    span.length?.map fun n => ⟨span.line, span.startCol, n, kind⟩

/-- **Tokens of a location** are made without underflow. -/
theorem ofLocation?_eq (kind : TokenClass) (l : Location) :
    ofLocation? kind l = some (ofLocation kind l) := by
  apply Word.mapM_eq_map
  intro s hs
  have hcols := LineSpan.startCol_le_endCol s (List.mem_filter.1 hs).1
  rw [LineSpan.length?_eq hcols]; rfl

/-- What is known on a walk: how many attribute values stand open, and the tokens so far. -/
structure Collected where
  depth : ℕ := 0
  tokens : List SemanticToken := []
deriving DecidableEq, Repr, Inhabited

namespace Collected

/-- The walk meets one more thing. -/
def visit? (s : Collected) : Visit → Option Collected
  | .trivia _ => some s
  | .enter n =>
    (if n.kind = .attributeValue then Word.add? s.depth 1 else some s.depth).bind fun depth =>
      match TokenClass.ofKind? (0 < depth) n.kind, n.location? with
      | some kind, some l => (ofLocation? kind l).map fun tokens => ⟨depth, s.tokens ++ tokens⟩
      | _, _ => some ⟨depth, s.tokens⟩
  | .leave n =>
    (if n.kind = .attributeValue then Word.sub? s.depth 1 else some s.depth).map fun depth =>
      ⟨depth, s.tokens⟩

/-- Blanks are visited without a change. -/
theorem visit?_blanks (s : Collected) (l : Option Location) : (Node.blankVisits l).foldlM visit? s = some s := by
  cases l <;> rfl

/-- A leaf is entered and left at once. -/
theorem visit?_leaf {s : Collected} (h : s.depth + 1 < 2 ^ 64) (k : Kind) (c : Leaf) (l : Location) (t : Trivia) :
    [.enter (.leaf k c l t), .leave (.leaf k c l t)].foldlM visit? s =
      some ⟨s.depth, s.tokens ++ ofNode (0 < s.depth) (.leaf k c l t)⟩ := by
  by_cases hk : k = .attributeValue
  · subst hk
    simp [visit?, Node.kind, Node.location?, TokenClass.ofKind?, Word.add?_eq h, Word.sub?_eq, ofNode]
  · cases hclass : TokenClass.ofKind? (0 < s.depth) k with
    | none => simp [visit?, Node.kind, Node.location?, hk, hclass, ofNode]
    | some kind => simp [visit?, Node.kind, Node.location?, hk, hclass, ofNode, ofLocation?_eq]

/-- How many attribute values a branch of a kind opens. -/
def opens (k : Kind) : ℕ :=
  if k = .attributeValue then 1 else 0

/-- An attribute value that is entered is counted. -/
theorem visit?_enter {s : Collected} (h : s.depth + 1 < 2 ^ 64) (k : Kind) (cs : List Node) (t : Trivia) :
    visit? s (.enter (.branch k cs t)) = some ⟨s.depth + opens k, s.tokens⟩ := by
  by_cases hk : k = .attributeValue <;>
    simp [visit?, Node.kind, Node.location?, opens, hk, Word.add?_eq h]

/-- It is still counted when it is left. -/
theorem visit?_leave (depth : ℕ) (tokens : List SemanticToken) (k : Kind) (cs : List Node) (t : Trivia) :
    visit? ⟨depth + opens k, tokens⟩ (.leave (.branch k cs t)) = some ⟨depth, tokens⟩ := by
  by_cases hk : k = .attributeValue <;> simp [visit?, Node.kind, opens, hk, Word.sub?_eq]

theorem pos_opens (depth : ℕ) (k : Kind) :
    decide (0 < depth + opens k) = (decide (0 < depth) || k == .attributeValue) := by
  by_cases hk : k = .attributeValue <;> simp [opens, hk]

theorem opens_le (k : Kind) : opens k ≤ 1 := by
  unfold opens; split <;> omega

mutual

/-- **A walk collects the tokens of its nodes** and leaves the depth as it was, by induction on the tree.
-/
theorem visit?_walk : ∀ (n : Node) (s : Collected), s.depth + n.descendants.length < 2 ^ 64 →
    (n.walk fun _ => false).foldlM visit? s = some ⟨s.depth, s.tokens ++ ofNode (0 < s.depth) n⟩
  | .leaf k c l t, s, h => by
    rw [Node.descendants, List.length_singleton] at h
    rw [Node.walk, List.foldlM_append, List.foldlM_append, visit?_blanks]
    show ([Visit.enter _, Visit.leave _].foldlM visit? s >>= _) = _
    rw [visit?_leaf h]
    exact visit?_blanks _ _
  | .branch k cs t, s, h => by
    rw [Node.descendants, List.length_cons] at h
    have hopens := opens_le k
    have hcs := visit?_walkAll cs ⟨s.depth + opens k, s.tokens⟩ (by dsimp only; omega)
    dsimp only at hcs
    rw [pos_opens] at hcs
    rw [Node.walk, List.foldlM_append, List.foldlM_append, List.foldlM_append, List.foldlM_append,
      visit?_blanks]
    simp only [Option.bind_eq_bind, Option.bind_some, List.foldlM_cons, List.foldlM_nil,
      visit?_enter (s := s) (by omega), if_neg Bool.false_ne_true, Option.bind_fun_some, Option.pure_def, hcs]
    rw [visit?_leave]
    exact visit?_blanks _ _

theorem visit?_walkAll : ∀ (ns : List Node) (s : Collected), s.depth + (Node.descendantsAll ns).length < 2 ^ 64 →
    (Node.walkAll (fun _ => false) ns).foldlM visit? s = some ⟨s.depth, s.tokens ++ ofNodes (0 < s.depth) ns⟩
  | [], s, _ => by rw [ofNodes, List.append_nil]; rfl
  | n :: ns, s, h => by
    rw [Node.descendantsAll, List.length_append] at h
    rw [Node.walkAll, List.foldlM_append, visit?_walk n s (by omega)]
    show (Node.walkAll (fun _ => false) ns).foldlM visit? _ = _
    rw [visit?_walkAll ns _ (by dsimp only; omega), ofNodes, List.append_assoc]

end

end Collected

/-- The tokens of nodes, collected on a walk through all of them. -/
def collect? (nodes : List Node) : Option Collected :=
  (Node.walkAll (fun _ => false) nodes).foldlM Collected.visit? {}

/-- **On a walk the attribute values that stand open are counted right**: none is left
that was not entered, and at the end none stands open. -/
theorem collect?_eq {nodes : List Node} (h : (Node.descendantsAll nodes).length < 2 ^ 64) :
    collect? nodes = some ⟨0, ofNodes false nodes⟩ :=
  Collected.visit?_walkAll nodes {} (by simpa using h)

/-- The five numbers of a token after a position, their differences in words. -/
def encodeAfter? (line col : ℕ) (t : SemanticToken) : Option (List UInt32) :=
  (Word.sub? t.line line).bind fun lines =>
    (if lines = 0 then Word.sub? t.startCol col else some t.startCol).map fun cols =>
      [lines.toUInt32, cols.toUInt32, t.length.toUInt32, t.kind.number.toUInt32, 0]

def encodeFrom? (line col : ℕ) : List SemanticToken → Option (List UInt32)
  | [] => some []
  | t :: more =>
    (encodeAfter? line col t).bind fun ns => (encodeFrom? t.line t.startCol more).map (ns ++ ·)

/-- The relative form of tokens, their differences in words. -/
def encode? (tokens : List SemanticToken) : Option (List UInt32) :=
  encodeFrom? 0 0 (tokens.mergeSort inOrder)

theorem inOrder_iff {a b : SemanticToken} :
    inOrder a b = true ↔ a.line < b.line ∨ a.line = b.line ∧ a.startCol ≤ b.startCol := by
  simp [inOrder]

/-- A token behind another one has differences that are not negative. -/
theorem encodeAfter?_eq {line col : ℕ} {t : SemanticToken}
    (h : line < t.line ∨ line = t.line ∧ col ≤ t.startCol) :
    encodeAfter? line col t = some (encodeAfter line col t) := by
  rw [encodeAfter?, Word.sub?_eq (by omega), Option.bind_some, encodeAfter]
  split
  next hzero => rw [Word.sub?_eq (by omega)]; rfl
  next => rfl

/-- **Tokens in order are encoded without underflow.** -/
theorem encodeFrom?_eq {line col : ℕ} {ts : List SemanticToken}
    (hfirst : ∀ t ∈ ts, line < t.line ∨ line = t.line ∧ col ≤ t.startCol)
    (hsorted : ts.Pairwise fun a b => inOrder a b = true) :
    encodeFrom? line col ts = some (encodeFrom line col ts) := by
  induction ts generalizing line col with
  | nil => rfl
  | cons t ts ih =>
    obtain ⟨hnext, hsorted⟩ := List.pairwise_cons.1 hsorted
    rw [encodeFrom?, encodeAfter?_eq (hfirst t List.mem_cons_self), Option.bind_some,
      ih (fun t' ht' => inOrder_iff.1 (hnext t' ht')) hsorted]
    rfl

/-- **Tokens in any order have a relative form**, as they are put in order first. -/
theorem encode?_eq (tokens : List SemanticToken) : encode? tokens = some (encode tokens) := by
  refine encodeFrom?_eq (fun t _ => by omega) (List.pairwise_mergeSort ?_ ?_ tokens)
  · intro a b c hab hbc
    rw [inOrder_iff] at *
    omega
  · intro a b
    rw [Bool.or_eq_true, inOrder_iff, inOrder_iff]
    omega

/-- Five numbers for each token. -/
theorem length_encodeFrom (line col : ℕ) (ts : List SemanticToken) :
    (encodeFrom line col ts).length = 5 * ts.length := by
  induction ts generalizing line col with
  | nil => rfl
  | cons t ts ih =>
    rw [encodeFrom, List.length_append, ih, List.length_cons]
    simp only [encodeAfter, List.length_cons, List.length_nil]
    omega

/-- The room that the relative form of tokens needs, a product of words. -/
def room? (tokens : List SemanticToken) : Option ℕ :=
  Word.mul? tokens.length 5

/-- **The room is as large as the relative form.** -/
theorem room?_eq {tokens : List SemanticToken} (h : tokens.length * 5 < 2 ^ 64) :
    room? tokens = some (encode tokens).length := by
  rw [room?, Word.mul?_eq h, encode, length_encodeFrom, List.length_mergeSort, Nat.mul_comm]

theorem length_ofLocation_le (kind : TokenClass) (l : Location) : (ofLocation kind l).length ≤ l.text.length := by
  rw [ofLocation, List.length_map]
  exact (LineSpan.length_filter_ofPieces_le _ _ _ _).trans (Text.length_flatten_split_le '\n' l.text)

mutual

/-- There are no more tokens than characters. -/
theorem length_ofNode_le : ∀ (inValue : Bool) (n : Node), (ofNode inValue n).length ≤ n.source.length
  | inValue, .leaf k c l t => by
    have htext : l.text.length ≤ (Node.leaf k c l t).source.length := by
      simp only [Node.source, List.length_append]
      omega
    rw [ofNode]
    split
    · exact (length_ofLocation_le _ l).trans htext
    · exact Nat.zero_le _
  | inValue, .branch k cs t => by
    have hcs := length_ofNodes_le (inValue || k == .attributeValue) cs
    rw [ofNode, Node.source, List.length_append, List.length_append]
    omega

/-- **Each token has a character of its own.** -/
theorem length_ofNodes_le : ∀ (inValue : Bool) (ns : List Node),
    (ofNodes inValue ns).length ≤ (Node.sourceAll ns).length
  | _, [] => Nat.le_refl _
  | inValue, n :: ns => by
    have hn := length_ofNode_le inValue n
    have hns := length_ofNodes_le inValue ns
    rw [ofNodes, Node.sourceAll, List.length_append, List.length_append]
    omega

end

end SemanticToken

/-! ## The numbers of a source map -/

namespace Vlq

/-- A signed word in base 64: it is negated, if it is negative, and doubled as a signed word, and
the digits are looked up. -/
def encode? (n : ℤ) : Option Text :=
  (Word.signed? n).bind fun n =>
    (Word.signed? (if n < 0 then -n else n)).bind fun size =>
      (Word.signed? (if n < 0 then 2 * size + 1 else 2 * size)).bind fun folded =>
        (digits folded.toNat).mapM fun d => alphabet[d]?

/-- Numbers below 2⁶² are encoded without overflow. -/
theorem encode?_eq {n : ℤ} (h : n.natAbs < 2 ^ 62) : encode? n = some (encode n) := by
  have hsize : (if n < 0 then -n else n) = n.natAbs := by split <;> omega
  have hfolded : (if n < 0 then 2 * (n.natAbs : ℤ) + 1 else 2 * n.natAbs) = ofInt n := by
    unfold ofInt
    split <;> omega
  have hlt := ofInt_lt h
  rw [encode?, Word.signed?_eq (by omega), Option.bind_some, hsize, Word.signed?_eq (by omega),
    Option.bind_some, hfolded, Word.signed?_eq (by omega), Option.bind_some]
  apply Word.mapM_eq_map
  intro d hd
  have hdigit : d < alphabet.length := digits_lt _ d hd
  rw [List.getD_eq_getElem?_getD, List.getElem?_eq_getElem hdigit]; rfl

end Vlq

namespace SourceMap

/-- Adds a mapping. The index of a new file is one less than the number of files. -/
def add? (m : SourceMap) (file : String) (mapping : Mapping) : Option SourceMap :=
  match m.sources.idxOf? file with
  | some i => some { m with entries := m.entries ++ [⟨i, mapping⟩] }
  | none =>
    (Word.sub? (m.sources ++ [file]).length 1).map fun i =>
      { sources := m.sources ++ [file], entries := m.entries ++ [⟨i, mapping⟩] }

def addAll? (m : SourceMap) (file : String) (mappings : List Mapping) : Option SourceMap :=
  mappings.foldlM (fun m mapping => m.add? file mapping) m

theorem add?_eq (m : SourceMap) (file : String) (mapping : Mapping) :
    m.add? file mapping = some (m.add file mapping) := by
  unfold add? add
  cases m.sources.idxOf? file with
  | some i => rfl
  | none => dsimp only; rw [List.length_append, List.length_singleton, Word.sub?_eq (by omega)]; rfl

/-- Mappings are added without overflow. -/
theorem addAll?_eq (m : SourceMap) (file : String) (mappings : List Mapping) :
    m.addAll? file mappings = some (m.addAll file mappings) := by
  induction mappings generalizing m with
  | nil => rfl
  | cons x mappings ih =>
    rw [addAll?, List.foldlM_cons, add?_eq]
    exact ih _

/-- The text of one entry. Its line is reached by counting up, and its numbers are differences
of signed words. -/
def encodeStep? (r : Reference) (e : MapEntry) : Option Text :=
  (Word.add? r.line (e.mapping.genLine - r.line)).bind fun _ =>
    ((differences r e).mapM Vlq.encode?).map fun numbers =>
      List.replicate (e.mapping.genLine - r.line) ';' ++
        (if e.mapping.genLine - r.line = 0 && !r.first then [','] else []) ++ numbers.flatten

def encodeFrom? (r : Reference) : List MapEntry → Option Text
  | [] => some []
  | e :: more => (encodeStep? r e).bind fun t => (encodeFrom? (referenceAfter r e) more).map (t ++ ·)

/-- All mappings as a source map holds them, in words. -/
def encode? (m : SourceMap) : Option Text :=
  encodeFrom? {} m.sorted

/-- The numbers of an entry are small enough for their differences to be signed words with
a bit to spare. -/
structure Slight (e : MapEntry) : Prop where
  genLine : e.mapping.genLine < 2 ^ 64
  genCol : e.mapping.genCol < 2 ^ 62
  source : e.source < 2 ^ 62
  srcLine : e.mapping.srcLine < 2 ^ 62
  srcCol : e.mapping.srcCol < 2 ^ 62

/-- So are the numbers that the next entry is measured from. -/
structure Reference.Slight (r : Reference) : Prop where
  line : r.line < 2 ^ 64
  genCol : 0 ≤ r.genCol ∧ r.genCol < 2 ^ 62
  source : 0 ≤ r.source ∧ r.source < 2 ^ 62
  srcLine : 0 ≤ r.srcLine ∧ r.srcLine < 2 ^ 62
  srcCol : 0 ≤ r.srcCol ∧ r.srcCol < 2 ^ 62

variable {r : Reference} {e : MapEntry} {es : List MapEntry}

theorem Slight.referenceAfter (hr : r.Slight) (he : Slight e) : (referenceAfter r e).Slight := by
  obtain ⟨hline, -, -, -, -⟩ := hr
  obtain ⟨hgenLine, hgenCol, hsource, hsrcLine, hsrcCol⟩ := he
  constructor <;> simp only [SourceMap.referenceAfter] <;> omega

/-- Differences of small numbers are small. -/
theorem Slight.natAbs_lt (hr : r.Slight) (he : Slight e) : ∀ d ∈ differences r e, d.natAbs < 2 ^ 62 := by
  obtain ⟨-, hrCol, hrSource, hrLine, hrSrcCol⟩ := hr
  obtain ⟨-, hgenCol, hsource, hsrcLine, hsrcCol⟩ := he
  intro d hd
  simp only [differences, List.mem_cons, List.not_mem_nil, or_false] at hd
  rcases hd with rfl | rfl | rfl | rfl
  · split <;> omega
  all_goals omega

/-- **Entries with small numbers** are encoded without overflow. -/
theorem encodeStep?_eq (hr : r.Slight) (he : Slight e) : encodeStep? r e = some (encodeEntry r e) := by
  have hnumbers : (differences r e).mapM Vlq.encode? = some ((differences r e).map Vlq.encode) :=
    Word.mapM_eq_map fun d hd => Vlq.encode?_eq (Slight.natAbs_lt hr he d hd)
  have hline := hr.line
  have hgenLine := he.genLine
  rw [encodeStep?, Word.add?_eq (by omega), Option.bind_some, hnumbers, Option.map_some, encodeEntry_eq, segment,
    List.flatMap_def]

theorem encodeFrom?_eq (hr : r.Slight) (hes : ∀ e ∈ es, Slight e) :
    encodeFrom? r es = some (encodeFrom r es) := by
  induction es generalizing r with
  | nil => rfl
  | cons e es ih =>
    have he := hes e List.mem_cons_self
    rw [encodeFrom?, encodeStep?_eq hr he, Option.bind_some,
      ih (Slight.referenceAfter hr he) fun e' he' => hes e' (List.mem_cons_of_mem e he')]
    rfl

/-- **The numbers of a source map are signed words**, if its entries are small. -/
theorem encode?_eq {m : SourceMap} (h : ∀ e ∈ m.entries, Slight e) : m.encode? = some m.encode := by
  refine encodeFrom?_eq (by constructor <;> decide) fun e he => h e ?_
  exact (List.mergeSort_perm m.entries inOrder).mem_iff.1 he

end SourceMap

end Stencil
