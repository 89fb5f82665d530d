import Stencil.Proofs.Checked
import Stencil.Proofs.Injections

/-!
# Writing a render function in words

The emitter counts what it writes: the length, the line and the column of the output, and
the offsets of the source in UTF-16 units, which it looks up in a table. Here it is
written once more with words, with indices that are looked up, and with the assertion that
no scope is left open; a fault is `none`.

`e.Gives x e'` says of a part `x` of this second run, begun in the emitter `e`, that it
ends in `e'` as the plain one does, if only the length of what is then written is a word.
The scopes are those of `e` again.

* `Emitter.flush_gives`, `Emitter.codeLine_gives`: what writes a line.
* `Node.emit_gives`: all nodes of a tree.
* `Template.output?_eq`: **a whole render function is written without a fault**, if its
  length is a word.
* `Injection.all?_eq`: the parts that are put around the verbatim ranges are cut out of it
  without a fault.
-/

namespace Stencil

/-! ## Offsets in UTF-16 units -/

/-- The offsets of all places of a text, in words; the text itself starts at `n`. -/
def Text.boundaries? (n : ℕ) : Text → Option (List ℕ)
  | [] => some [n]
  | c :: rest => (Word.add? n (width c)).bind fun m => (boundaries? m rest).map (n :: ·)

/-- No boundary of a text whose units fit overflows. -/
theorem Text.boundaries?_eq {n : ℕ} {t : Text} (h : n + t.units < 2 ^ 64) :
    boundaries? n t = some ((List.range (t.length + 1)).map fun i => n + t.unitOffset i) := by
  induction t generalizing n with
  | nil => rfl
  | cons c t ih =>
    rw [units, ← Nat.add_assoc] at h
    rw [boundaries?, Word.add?_eq (by omega), Option.bind_some, ih h, Option.map_some, List.length_cons,
      List.range_succ_eq_map (n := t.length + 1), List.map_cons, List.map_map]
    congr 2
    apply List.map_congr_left
    intro i _
    simp only [Function.comp_apply, unitOffset]
    omega

/-- Every character takes one unit at least. -/
theorem Text.length_le_units (t : Text) : t.length ≤ t.units := by
  induction t with
  | nil => exact Nat.le_refl _
  | cons c t ih =>
    have := width_pos c
    rw [units, List.length_cons]
    omega

theorem Text.unitOffset_min (t : Text) (n : ℕ) : t.unitOffset (min n t.length) = t.unitOffset n := by
  rw [unitOffset_eq, unitOffset_eq, ← List.take_eq_take_min]

namespace Emitter

/-- The offset of a place, looked up. A place past the end is that of the end. -/
def unitOffset? (e : Emitter) (n : ℕ) : Option ℕ :=
  (Text.boundaries? 0 e.source).bind fun table =>
    (Word.sub? table.length 1).bind fun last => table[min n last]?

/-- The column of a position: the difference of two offsets. -/
def unitColumn? (e : Emitter) (p : Position) : Option ℕ :=
  (e.unitOffset? p.offset).bind fun stop =>
    (e.unitOffset? (p.offset - p.col)).bind fun start => Word.sub? stop start

variable {e : Emitter}

/-- Offsets into the source are checked without failing. -/
theorem unitOffset?_eq (h : e.source.units < 2 ^ 64) (n : ℕ) :
    e.unitOffset? n = some (e.source.unitOffset n) := by
  have hlt : min n e.source.length < e.source.length + 1 := by omega
  rw [unitOffset?, Text.boundaries?_eq (by omega), Option.bind_some, List.length_map, List.length_range,
    Word.sub?_eq (by omega), Option.bind_some, Nat.add_sub_cancel, List.getElem?_map, List.getElem?_range hlt,
    Option.map_some, Text.unitOffset_min, Nat.zero_add]

/-- The start of the line of a position and its column make up its offset. -/
theorem unitOffset_eq_add (e : Emitter) (p : Position) :
    e.source.unitOffset p.offset = e.source.unitOffset (p.offset - p.col) + e.unitColumn p := by
  have hsplit : e.source.take p.offset =
      e.source.take (p.offset - p.col) ++ (e.source.drop (p.offset - p.col)).take (min p.col p.offset) := by
    rw [← List.take_add]
    congr 1
    omega
  rw [unitColumn, Text.unitOffset_eq, Text.unitOffset_eq, Text.unitOffset_eq, hsplit, Text.units_append]

/-- Columns are at most the length of the source. -/
theorem unitColumn_le (e : Emitter) (p : Position) : e.unitColumn p ≤ e.source.units := by
  have hall := Text.units_append (e.source.take p.offset) (e.source.drop p.offset)
  have hoffset := e.unitOffset_eq_add p
  rw [List.take_append_drop] at hall
  rw [Text.unitOffset_eq] at hoffset
  omega

/-- **The column of any position is a difference of words**: its line does not start
behind it. -/
theorem unitColumn?_eq (h : e.source.units < 2 ^ 64) (p : Position) : e.unitColumn? p = some (e.unitColumn p) := by
  rw [unitColumn?, unitOffset?_eq h, Option.bind_some, unitOffset?_eq h, Option.bind_some, unitOffset_eq_add,
    Word.sub?_eq (by omega), Nat.add_sub_cancel_left]

end Emitter

/-! ## The output -/

namespace Output

/-- Writes one character and counts it in words. -/
def put? (o : Output) (c : Char) : Option Output :=
  (Word.add? o.length (Text.width c)).bind fun length =>
    if c = '\n' then
      (Word.add? o.line 1).map fun line => { o with written := c :: o.written, line, col := 0, length }
    else
      (Word.add? o.col (Text.width c)).map fun col => { o with written := c :: o.written, col, length }

def push? (o : Output) (t : Text) : Option Output :=
  t.foldlM put? o

variable {o : Output}

/-- The output has no more lines than units. -/
theorem Tracked.line_le (h : o.Tracked) : o.line ≤ o.length := by
  have hline : o.line = o.code.count '\n' := congrArg Point.line h.point
  rw [hline, h.length]
  exact List.count_le_length.trans (Text.length_le_units _)

/-- Nor is its column beyond them. -/
theorem Tracked.col_le (h : o.Tracked) : o.col ≤ o.length := by
  have hcol : o.col = Text.units (o.code.reverse.takeWhile (· != '\n')) := congrArg Point.col h.point
  have hall := Text.units_append (o.code.reverse.takeWhile (· != '\n')) (o.code.reverse.dropWhile (· != '\n'))
  rw [List.takeWhile_append_dropWhile, Text.units_reverse] at hall
  rw [hcol, h.length]
  omega

theorem put?_eq (h : o.Tracked) {c : Char} (hlen : (o.put c).length < 2 ^ 64) : o.put? c = some (o.put c) := by
  have hline := h.line_le
  have hcol := h.col_le
  have hwidth := Text.width_pos c
  rw [length_put] at hlen
  rw [put?, Word.add?_eq hlen, Option.bind_some, Output.put]
  split
  · rw [Word.add?_eq (by omega)]; rfl
  · rw [Word.add?_eq (by omega)]; rfl

/-- **Writing does not overflow** as long as the length fits. -/
theorem push?_eq (h : o.Tracked) {t : Text} (hlen : (o.push t).length < 2 ^ 64) :
    o.push? t = some (o.push t) := by
  induction t generalizing o with
  | nil => rfl
  | cons c t ih =>
    have hlater : ((o.put c).push t).length < 2 ^ 64 := hlen
    have hput := put?_eq h (c := c) (by rw [length_push] at hlater; omega)
    rw [push?, List.foldlM_cons, hput]
    exact ih (h.push [c]) hlater

end Output

/-! ## The emitter -/

namespace Emitter

/-- The emitter keeps track of its output, and the offsets of its source are words. -/
structure Ready (e : Emitter) : Prop where
  output : e.output.Tracked
  source : e.source.units < 2 ^ 64

/-- From `e` on, the run in words ends in `e'`, if the length that is reached is a word. -/
structure Gives (e : Emitter) (x : Option Emitter) (e' : Emitter) : Prop where
  ready : e.Ready → e'.Ready
  grows : e.output.length ≤ e'.output.length
  scopes : e'.scopes = e.scopes
  agrees : e.Ready → e'.output.length < 2 ^ 64 → x = some e'

namespace Gives

variable {e e' e'' : Emitter} {x : Option Emitter}

/-- What leaves the output, the source and the scopes alone has no fault. -/
theorem of_same (hsource : e'.source = e.source) (houtput : e'.output = e.output)
    (hscopes : e'.scopes = e.scopes) : e.Gives (some e') e' where
  ready h := ⟨houtput ▸ h.output, hsource ▸ h.source⟩
  grows := by rw [houtput]
  scopes := hscopes
  agrees _ _ := rfl

theorem refl (e : Emitter) : e.Gives (some e) e := of_same rfl rfl rfl

/-- Checked steps one after the other. -/
theorem bind {f : Emitter → Option Emitter} (h : e.Gives x e') (h' : e'.Gives (f e') e'') :
    e.Gives (x >>= f) e'' where
  ready := h'.ready ∘ h.ready
  grows := h.grows.trans h'.grows
  scopes := h'.scopes.trans h.scopes
  agrees hready hlen := by
    have hgrows := h'.grows
    rw [h.agrees hready (by omega)]
    exact h'.agrees (h.ready hready) hlen

/-- What is done first has no fault of its own. -/
theorem after (h : e.Gives (some e') e') (h' : e'.Gives x e'') : e.Gives x e'' :=
  h.bind (f := fun _ => x) h'

/-- A number that is a word whenever the length at the end is one. -/
theorem word {w : Option ℕ} {n : ℕ} {f : ℕ → Option Emitter} (hw : e'.output.length < 2 ^ 64 → w = some n)
    (h : e.Gives (f n) e') : e.Gives (w >>= f) e' where
  ready := h.ready
  grows := h.grows
  scopes := h.scopes
  agrees hready hlen := by rw [hw hlen]; exact h.agrees hready hlen

/-- A step that cannot fail may follow. -/
theorem map {f : Emitter → Emitter} (h : e.Gives x e') (hf : e'.Gives (some (f e')) (f e')) :
    e.Gives (x.map f) (f e') := by
  rw [Option.map_eq_bind]
  exact h.bind hf

/-- A scope that is entered is left again. -/
theorem within {s : Scope} (h : (e.enter s).Gives x e') : e.Gives (x.map leave) e'.leave where
  ready hready :=
    have hinside := h.ready ⟨hready.output, hready.source⟩
    ⟨hinside.output, hinside.source⟩
  grows := h.grows
  scopes := by rw [leave, h.scopes]; rfl
  agrees hready hlen := by rw [h.agrees ⟨hready.output, hready.source⟩ hlen]; rfl

end Gives

/-- Writes a text in words. -/
def write? (e : Emitter) (t : Text) : Option Emitter :=
  (e.output.push? t).map fun output => { e with output }

def mapHere? (e : Emitter) (p : Position) : Option Emitter :=
  (e.unitColumn? p).map fun col =>
    { e with
      output := e.output.mapHere p.line col
      traced := e.traced ++ [e.output.mappingHere p.line col] }

def addRange? (e : Emitter) (kind : RangeKind) (start stop : Position)
    (compiledStart compiledStop : ℕ) (verbatim : Bool) : Option Emitter :=
  if e.collectRanges then
    (e.unitOffset? start.offset).bind fun sourceStart =>
      (e.unitOffset? stop.offset).map fun sourceStop =>
        let range : CodeRange := ⟨kind, sourceStart, sourceStop, compiledStart, compiledStop, verbatim⟩
        { e with output := e.output.addRange range }
  else some e

/-- Writes the literal text that waits. The range leaves out the quotes around it. -/
def flush? (e : Emitter) : Option Emitter :=
  match e.pending with
  | none => some e
  | some p => do
    let e ← write? { e with pending := none } indent
    let e ← e.mapHere? p.start
    let opened ← e.write? "__writer.writeLiteral(".toList
    let start ← Word.add? opened.output.length 1
    let filled ← opened.write? p.text.quoted
    let stop ← Word.sub? filled.output.length 1
    let e ← filled.write? ");\n".toList
    e.addRange? .html p.start p.stop start stop false

def codeLine? (e : Emitter) (opening closing code : Text) (l : Location) : Option Emitter :=
  if code.allBlank then some e
  else do
    let e ← e.flush?
    let e ← e.write? indent
    let e ← e.write? opening
    let opened ← e.mapHere? l.start
    let filled ← opened.write? code
    let e ← filled.write? closing
    e.addRange? .javascript l.start l.stop opened.output.length filled.output.length (l.text == code)

def statement? (e : Emitter) (code : Text) (l : Location) : Option Emitter :=
  e.codeLine? [] ['\n'] code l

def expression? (e : Emitter) (code : Text) (l : Location) : Option Emitter :=
  e.codeLine? "__writer.write(".toList ");\n".toList code l

def line? (e : Emitter) (t : Text) : Option Emitter := do
  let e ← e.flush?
  let e ← e.write? t
  e.write? ['\n']

/-- The output once all literal text is written and every scope is left. -/
def finish? (e : Emitter) : Option Output := do
  let e ← e.flush?
  if e.scopes = [] then some e.output else none

variable {e : Emitter}

/-- Writing adds the units of the text. -/
theorem length_write (e : Emitter) (t : Text) : (e.write t).output.length = e.output.length + t.units :=
  e.output.length_push t

theorem length_addRange (e : Emitter) (k : RangeKind) (p q : Position) (i j : ℕ) (v : Bool) :
    (e.addRange k p q i j v).output.length = e.output.length := by
  rw [output_addRange]

/-- **Writing, mapping and recording** do what they do unchecked. -/
theorem write_gives (e : Emitter) (t : Text) : e.Gives (e.write? t) (e.write t) where
  ready h := ⟨h.output.push t, h.source⟩
  grows := by rw [length_write]; omega
  scopes := rfl
  agrees h hlen := by rw [write?, Output.push?_eq h.output hlen]; rfl

theorem mapHere_gives (e : Emitter) (p : Position) : e.Gives (e.mapHere? p) (e.mapHere p) where
  ready h := ⟨h.output.mapHere _ _, h.source⟩
  grows := Nat.le_refl _
  scopes := rfl
  agrees h _ := by rw [mapHere?, unitColumn?_eq h.source]; rfl

theorem addRange_gives (e : Emitter) (k : RangeKind) (p q : Position) (i j : ℕ) (v : Bool) :
    e.Gives (e.addRange? k p q i j v) (e.addRange k p q i j v) where
  ready h := by
    refine ⟨?_, by rw [source_addRange]; exact h.source⟩
    rw [output_addRange]
    exact ⟨h.output.point, h.output.length⟩
  grows := by rw [length_addRange]
  scopes := by unfold addRange; split <;> rfl
  agrees h _ := by
    unfold addRange? addRange
    split
    · rw [unitOffset?_eq h.source, Option.bind_some, unitOffset?_eq h.source]; rfl
    · rfl

theorem literal_gives (e : Emitter) (t : Text) (l : Location) :
    e.Gives (some (e.literal t l)) (e.literal t l) := by
  unfold literal
  split
  · exact .refl e
  · split <;> exact .of_same rfl rfl rfl

/-- **The text that waits is written without a fault**: the quotes around it are counted
before they are taken off. -/
theorem flush_gives (e : Emitter) : e.Gives e.flush? e.flush := by
  unfold flush? flush
  cases hp : e.pending with
  | none => exact .refl e
  | some p =>
    have hstart : e.Gives (some { e with pending := none }) { e with pending := none } := .of_same rfl rfl rfl
    refine hstart.after ((write_gives _ _).bind ((mapHere_gives _ _).bind ((write_gives _ _).bind ?_)))
    -- the two quotes leave room for the one before the range and the one after it
    have hquotes : 2 ≤ p.text.quoted.units := by
      rw [Text.quoted, Text.units, Text.units_append]
      have := Text.width_pos '"'
      simp only [Text.units]
      omega
    refine .word (fun hlen => Word.add?_eq ?_) ((write_gives _ _).bind ?_)
    · rw [length_addRange, length_write, length_write] at hlen
      omega
    · refine .word (fun _ => Word.sub?_eq ?_) ((write_gives _ _).bind (addRange_gives _ _ _ _ _ _ _))
      rw [length_write]
      omega

/-- **Lines of code** do, too. -/
theorem codeLine_gives (e : Emitter) (opening closing code : Text) (l : Location) :
    e.Gives (e.codeLine? opening closing code l) (e.codeLine opening closing code l) := by
  unfold codeLine? codeLine
  split
  · exact .refl e
  · refine (flush_gives e).bind ((write_gives _ _).bind ((write_gives _ _).bind ?_))
    exact (mapHere_gives _ _).bind ((write_gives _ _).bind ((write_gives _ _).bind (addRange_gives _ _ _ _ _ _ _)))

theorem statement_gives (e : Emitter) (code : Text) (l : Location) :
    e.Gives (e.statement? code l) (e.statement code l) :=
  codeLine_gives e _ _ code l

theorem expression_gives (e : Emitter) (code : Text) (l : Location) :
    e.Gives (e.expression? code l) (e.expression code l) :=
  codeLine_gives e _ _ code l

theorem line_gives (e : Emitter) (t : Text) : e.Gives (e.line? t) (e.line t) :=
  (flush_gives e).bind ((write_gives _ _).bind (write_gives _ _))

/-- **Finishing does not fail** once all scopes are closed. -/
theorem finish?_eq (hready : e.Ready) (hscopes : e.scopes = []) (hlen : e.finish.length < 2 ^ 64) :
    e.finish? = some e.finish := by
  have hflush := flush_gives e
  rw [finish?, hflush.agrees hready hlen]
  exact if_pos (hflush.scopes.trans hscopes)

end Emitter

/-! ## Nodes -/

namespace Node

def emitExpression? (children : List Node) (e : Emitter) : Option Emitter :=
  match children.find? fun n => n.kind == .codeValue with
  | some (leaf _ (.token code) l _) =>
    if e.scope? = some .insideTag then e.expression? code l else e.statement? code l
  | _ => some e

def emitBrace? (first : Bool) (n : Node) (e : Emitter) : Option Emitter :=
  match n with
  | leaf _ (.token brace) l _ => e.statement? brace l
  | leaf _ _ l _ => e.statement? (if first then ['{'] else ['}']) l
  | branch _ _ _ => some e

/-- Writes a leaf by its kind. Only code is written at once. -/
def emitLeaf? (k : Kind) (content : Leaf) (l : Location) (e : Emitter) : Option Emitter :=
  match k, content with
  | .codeValue, .token code => e.statement? code l
  | _, _ => some (emitLeaf k content l e)

mutual

/-- Writes a node and everything below it, in words. -/
def emit? : Node → Emitter → Option Emitter
  | leaf k c l t, e => (emitLeaf? k c l (emitBlanks t.lead e)).map (emitBlanks t.trail)
  | branch k cs t, e =>
    let e := emitBlanks t.lead e
    Option.map (emitBlanks t.trail) <|
      match k with
      | .document => (emitAll? cs (e.enter .document)).map Emitter.leave
      | .htmlTag | .scriptTag | .styleTag => (emitAll? cs (e.enter .insideTag)).map Emitter.leave
      | .codeBlock => (emitBlock? cs (e.enter .insideCodeBlock)).map Emitter.leave
      | .codeBrace => emitBraces? true cs e
      | .codeExpression => emitExpression? cs e
      | .htmlStartTag | .htmlAttributes | .htmlAttribute | .attributeValue | .htmlEndTag
      | .comment | .cdata => emitAll? cs e
      | _ => some e

def emitAll? : List Node → Emitter → Option Emitter
  | [], e => some e
  | n :: ns, e => (emit? n e).bind (emitAll? ns)

def emitBlock? : List Node → Emitter → Option Emitter
  | [], e => some e
  | n :: ns, e =>
    if n.kind = .transition ∨ n.kind = .brace then emitBlock? ns e else (emit? n e).bind (emitBlock? ns)

def emitBraces? (first : Bool) : List Node → Emitter → Option Emitter
  | [], e => some e
  | n :: ns, e =>
    if n.kind = .brace then (emitBrace? first n e).bind (emitBraces? false ns)
    else (emit? n e).bind (emitBraces? false ns)

end

theorem emitBlanks_gives (l : Option Location) (e : Emitter) :
    e.Gives (some (emitBlanks l e)) (emitBlanks l e) := by
  cases l with
  | none => exact .refl e
  | some l => exact e.literal_gives l.text l

/-- The blanks around a node have no fault of their own. -/
theorem emitBlanks_around (t : Trivia) {e e' : Emitter} {x : Option Emitter}
    (h : (emitBlanks t.lead e).Gives x e') : e.Gives (x.map (emitBlanks t.trail)) (emitBlanks t.trail e') :=
  ((emitBlanks_gives t.lead e).after h).map (f := emitBlanks t.trail) (emitBlanks_gives t.trail e')

/-- Expressions are emitted without failing. -/
theorem emitExpression_gives (cs : List Node) (e : Emitter) :
    e.Gives (emitExpression? cs e) (emitExpression cs e) := by
  unfold emitExpression? emitExpression
  generalize (cs.find? fun n => n.kind == .codeValue) = found
  match found with
  | some (leaf _ (.token code) l _) =>
    dsimp only
    split
    · exact e.expression_gives code l
    · exact e.statement_gives code l
  | some (leaf _ .missing _ _) | some (leaf _ .marker _ _) | some (branch _ _ _) | none => exact .refl e

/-- So are braces. -/
theorem emitBrace_gives (first : Bool) (n : Node) (e : Emitter) :
    e.Gives (emitBrace? first n e) (emitBrace first n e) := by
  match n with
  | leaf _ (.token _) l _ | leaf _ .missing l _ | leaf _ .marker l _ => exact e.statement_gives _ l
  | branch _ _ _ => exact .refl e

/-- So are all other leaves. -/
theorem emitLeaf_gives (k : Kind) (c : Leaf) (l : Location) (e : Emitter) :
    e.Gives (emitLeaf? k c l e) (emitLeaf k c l e) := by
  unfold emitLeaf?
  split
  · exact e.statement_gives _ _
  · next hcode =>
    unfold emitLeaf
    split
    · exact (hcode _ rfl rfl).elim
    all_goals first | exact .refl e | exact e.literal_gives _ _ | exact .of_same rfl rfl rfl

mutual

/-- **A node is written without a fault**, and it leaves the scopes as they were. -/
theorem emit_gives : ∀ (n : Node) (e : Emitter), e.Gives (emit? n e) (emit n e)
  | leaf k c l t, e =>
    emitBlanks_around t (emitLeaf_gives k c l _)
  | branch k cs t, e => by
    cases k with
    | document | htmlTag | scriptTag | styleTag => exact emitBlanks_around t (emitAll_gives cs _).within
    | codeBlock => exact emitBlanks_around t (emitBlock_gives cs _).within
    | codeBrace => exact emitBlanks_around t (emitBraces_gives cs true _)
    | codeExpression => exact emitBlanks_around t (emitExpression_gives cs _)
    | htmlStartTag | htmlAttributes | htmlAttribute | attributeValue | htmlEndTag | comment | cdata =>
      exact emitBlanks_around t (emitAll_gives cs _)
    | _ => exact emitBlanks_around t (.refl _)

/-- **Nodes are emitted without failing**, by induction on the tree. -/
theorem emitAll_gives : ∀ (ns : List Node) (e : Emitter), e.Gives (emitAll? ns e) (emitAll ns e)
  | [], e => .refl e
  | n :: ns, e => (emit_gives n e).bind (emitAll_gives ns _)

theorem emitBlock_gives : ∀ (ns : List Node) (e : Emitter), e.Gives (emitBlock? ns e) (emitBlock ns e)
  | [], e => .refl e
  | n :: ns, e => by
    rw [emitBlock?, emitBlock]
    split
    · exact emitBlock_gives ns e
    · exact (emit_gives n e).bind (emitBlock_gives ns _)

theorem emitBraces_gives : ∀ (ns : List Node) (first : Bool) (e : Emitter),
    e.Gives (emitBraces? first ns e) (emitBraces first ns e)
  | [], _, e => .refl e
  | n :: ns, first, e => by
    rw [emitBraces?, emitBraces]
    split
    · exact (emitBrace_gives first n e).bind (emitBraces_gives ns false _)
    · exact (emit_gives n e).bind (emitBraces_gives ns false _)

end

end Node

/-! ## Whole templates -/

/-- The lines of the render function, written in words. -/
def Template.output? (r : Template) (options : RenderOptions) : Option Output :=
  let head := s!"export default function {options.functionName}(model, __writer) \x7b"
  do
    let e ← (r.emitter options).line? head.toList
    let e ← Node.emitAll? r.nodes e
    let e ← e.line? ['}']
    e.finish?

namespace Template

variable {r : Template} (options : RenderOptions)

/-- An emitter starts with all that the checks need. -/
theorem ready_emitter (h : r.source.units < 2 ^ 64) : (r.emitter options).Ready :=
  ⟨Output.tracked_empty, h⟩

/-- The emitter before the last flush. -/
theorem emitted_gives (r : Template) (head : Text) :
    (r.emitter options).Gives
      (do
        let e ← (r.emitter options).line? head
        let e ← Node.emitAll? r.nodes e
        e.line? ['}'])
      ((Node.emitAll r.nodes ((r.emitter options).line head)).line ['}']) :=
  ((r.emitter options).line_gives head).bind ((Node.emitAll_gives r.nodes _).bind (Emitter.line_gives _ _))

/-- The output of a render knows where it stands. -/
theorem tracked_output (h : r.source.units < 2 ^ 64) : (r.output options).Tracked :=
  ((Emitter.flush_gives _).ready ((emitted_gives options r _).ready (ready_emitter options h))).output

/-- **A render function is written without a fault**, if its length is a word: no counter
overflows, no difference is below zero, no index is out of range, and no scope is left
open. -/
theorem output?_eq (h : r.source.units < 2 ^ 64) (hlen : (r.output options).length < 2 ^ 64) :
    r.output? options = some (r.output options) := by
  have hgives := emitted_gives options r
    s!"export default function {options.functionName}(model, __writer) \x7b".toList
  have hready := ready_emitter options h
  have hrun := hgives.agrees hready (Nat.lt_of_le_of_lt (Emitter.flush_gives _).grows hlen)
  have hfinish := Emitter.finish?_eq (hgives.ready hready) hgives.scopes hlen
  -- the run up to the last flush, step by step
  simp only [Option.bind_eq_bind, Option.bind_eq_some_iff] at hrun
  obtain ⟨e₁, h₁, e₂, h₂, h₃⟩ := hrun
  simp only [output?, h₁, h₂, h₃, Option.bind_eq_bind, Option.bind_some]
  exact hfinish

end Template

/-! ## Injections -/

namespace Text

/-- The units between two offsets, cut out of all units of a text. A stop past the last unit is
moved to it, and nothing is cut out if the start is not before the stop. -/
def slice? (t : Text) (start stop : ℕ) : Option Text :=
  let stop := min stop t.units
  if stop ≤ start then some []
  else if start ≤ stop ∧ stop ≤ t.units then some (t.slice start stop)
  else none

/-- An empty range cuts nothing out. -/
theorem cut_eq_nil {start stop : ℕ} (h : stop ≤ start) (here : ℕ) (t : Text) : cut start stop here t = [] := by
  induction t generalizing here with
  | nil => rfl
  | cons c t ih =>
    have hinside : min stop (here + width c) - max start here = 0 := by omega
    rw [cut, if_pos hinside, ih]
    exact ite_self _

/-- A stop past the end of a text is as good as its end. -/
theorem cut_min (start stop here : ℕ) (t : Text) :
    cut start (min stop (here + t.units)) here t = cut start stop here t := by
  induction t generalizing here with
  | nil => rfl
  | cons c t ih =>
    have hwidth := width_pos c
    have hrest := ih (here + width c)
    rw [Nat.add_assoc] at hrest
    have hhere : min stop (here + (width c + units t)) ≤ here ↔ stop ≤ here := by omega
    have hinside : min (min stop (here + (width c + units t))) (here + width c) = min stop (here + width c) := by
      omega
    simp only [cut, units, hrest, hhere, hinside]

/-- Slices are cut without failing. -/
theorem slice?_eq (t : Text) (start stop : ℕ) : t.slice? start stop = some (t.slice start stop) := by
  have hmin : t.slice start (min stop t.units) = t.slice start stop := by
    have := cut_min start stop 0 t
    rwa [Nat.zero_add] at this
  unfold slice?
  dsimp only
  split
  next hle => rw [← hmin, slice, cut_eq_nil hle]
  next hlt => rw [if_pos (by omega), hmin]

end Text

namespace Injection

/-- The injections for ranges, in words: `index` is that of the first of them, and `count` is the
number of all. -/
def ofRanges? (code : Text) (count index previous : ℕ) : List CodeRange → Option (List Injection)
  | [] => some []
  | r :: more =>
    (Word.add? index 1).bind fun next =>
      (if next = count then code.slice? r.compiledStop code.units else some []).bind fun after =>
        (code.slice? previous r.compiledStart).bind fun before =>
          (ofRanges? code count next r.compiledStop more).map fun later =>
            ⟨r.kind, r.sourceStart, r.sourceStop, before, after⟩ :: later

/-- The injections for the verbatim ranges of a kind. -/
def ofKind? (code : Text) (ranges : List CodeRange) (kind : RangeKind) : Option (List Injection) :=
  ofRanges? code (verbatimRanges kind ranges).length 0 0 (verbatimRanges kind ranges)

/-- The injections for all verbatim ranges, in words. -/
def all? (code : Text) (ranges : List CodeRange) : Option (List Injection) :=
  (ofKind? code ranges .javascript).bind fun javascript => (ofKind? code ranges .html).map (javascript ++ ·)

/-- The last range is the one whose index is one less than their number. -/
theorem ofRanges?_eq {code : Text} {count index previous : ℕ} {rs : List CodeRange}
    (hcount : index + rs.length = count) (h : count < 2 ^ 64) :
    ofRanges? code count index previous rs = some (ofRanges code previous rs) := by
  induction rs generalizing index previous with
  | nil => rfl
  | cons r rs ih =>
    rw [List.length_cons] at hcount
    have hlast : index + 1 = count ↔ rs.isEmpty = true := by
      rw [List.isEmpty_iff_length_eq_zero]
      omega
    have hafter : (if index + 1 = count then code.slice? r.compiledStop code.units else some []) =
        some (if rs.isEmpty then code.slice r.compiledStop code.units else []) := by
      rw [Text.slice?_eq]
      simp only [hlast]
      split <;> rfl
    rw [ofRanges?, Word.add?_eq (by omega), Option.bind_some, hafter, Option.bind_some, Text.slice?_eq,
      Option.bind_some, ih (by omega)]
    rfl

/-- **Injections are counted without overflow** if there are less than 2⁶⁴ ranges. -/
theorem ofKind?_eq {code : Text} {ranges : List CodeRange} (h : ranges.length < 2 ^ 64) (kind : RangeKind) :
    ofKind? code ranges kind = some (ofRanges code 0 (verbatimRanges kind ranges)) := by
  refine ofRanges?_eq (Nat.zero_add _) (Nat.lt_of_le_of_lt ?_ h)
  rw [verbatimRanges, List.length_mergeSort]
  exact List.length_filter_le _ _

/-- **All parts are cut out of the code without a fault.** -/
theorem all?_eq {code : Text} {ranges : List CodeRange} (h : ranges.length < 2 ^ 64) :
    all? code ranges = some (all code ranges) := by
  rw [all?, ofKind?_eq h, Option.bind_some, ofKind?_eq h]
  rfl

end Injection

end Stencil
