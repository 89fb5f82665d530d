import Mathlib.Algebra.Ring.Nat
import Stencil.Script.SourceMap

/-!
# Reading a source map back

The text of a source map is read by the rules of its format: it is cut at `;` into the lines
of the generated code and at `,` into mappings, a mapping is four numbers in base 64, and each
number is a difference. The column of the generated code is counted from the start of each
line; the file and the place in it are carried over.

* `Vlq.decode_flatMap_encode`: numbers written one after another are read back.
* `SourceMap.encodeFrom_eq`: **the text of entries is that of rows of segments**, so cutting
  it gives these rows (`SourceMap.cut_encodeFrom`).
* `SourceMap.decode_encodeFrom`: the entries are read back from their rows.
* `SourceMap.Records.add`: what one call records, and by induction what all calls record.
* `SourceMap.decode_encode`: reading gives the calls back, in the stable order of their
  places in the generated code.
-/

namespace Stencil

/-! ## Numbers -/

namespace Vlq

/-- The numbers that digits stand for. A digit of thirty-two or more is the lower part of the
number that the digits after it begin with. -/
def numbers : List Nat → Option (List Nat)
  | [] => some []
  | d :: ds =>
    match decide (d < 32), numbers ds with
    | true, some ns => some (d :: ns)
    | false, some (n :: ns) => some ((d - 32 + 32 * n) :: ns)
    | _, _ => none

/-- The signed number that has its sign in the lowest bit. -/
def toInt (n : Nat) : Int :=
  if n % 2 = 0 then (n / 2 : Nat) else -(n / 2 : Nat)

/-- The numbers of a text in base 64. -/
def decode (t : Text) : Option (List Int) := do
  let ds ← t.mapM fun c => alphabet.idxOf? c
  let ns ← numbers ds
  return ns.map toInt

/-- **Digits of a number** are put together again, whatever follows. -/
theorem numbers_digits (n : Nat) (ds : List Nat) :
    numbers (digits n ++ ds) = (numbers ds).map (n :: ·) := by
  induction n using digits.induct with
  | case1 n h =>
    rw [digits, if_pos h, List.singleton_append, numbers]
    cases numbers ds <;> simp [h]
  | case2 n h ih =>
    have hd : ¬ n % 32 + 32 < 32 := by omega
    have hn : n % 32 + 32 * (n / 32) = n := by omega
    rw [digits, if_neg h, List.cons_append, numbers, ih]
    cases numbers ds <;> simp [hd, hn]

/-- Every digit has a character. -/
theorem digits_lt (n : Nat) : ∀ d ∈ digits n, d < 64 := by
  induction n using digits.induct with
  | case1 n h =>
    rw [digits, if_pos h]
    simp only [List.mem_singleton]
    omega
  | case2 n h ih =>
    rw [digits, if_neg h]
    simp only [List.mem_cons]
    rintro d (rfl | hd)
    · omega
    · exact ih d hd

theorem digits_ne_nil (n : Nat) : digits n ≠ [] := by
  rw [digits]
  split <;> simp

/-- The sign is kept in the last bit. -/
theorem toInt_ofInt (n : Int) : toInt (ofInt n) = n := by
  unfold toInt ofInt
  split <;> split <;> omega

theorem idxOf?_alphabet : ∀ d < 64, alphabet.idxOf? (alphabet.getD d 'A') = some d := by
  decide

/-- Characters of digits are digits again. -/
theorem mapM_alphabet {ds : List Nat} (h : ∀ d ∈ ds, d < 64) :
    (ds.map fun d => alphabet.getD d 'A').mapM (fun c => alphabet.idxOf? c) = some ds := by
  induction ds with
  | nil => rfl
  | cons d ds ih =>
    have hd : alphabet.idxOf? (alphabet.getD d 'A') = some d :=
      idxOf?_alphabet d (h d List.mem_cons_self)
    have hds := ih fun d hd => h d (List.mem_cons_of_mem _ hd)
    rw [List.map_cons, List.mapM_cons, hd, hds]
    rfl

/-- **A number is decoded as it was encoded**, whatever follows. -/
theorem decode_encode_append (n : Int) (t : Text) :
    decode (encode n ++ t) = (decode t).map (n :: ·) := by
  unfold decode encode
  rw [List.mapM_append, mapM_alphabet (digits_lt _)]
  cases t.mapM (fun c => alphabet.idxOf? c) with
  | none => rfl
  | some ds =>
    simp only [Option.bind_eq_bind, Option.bind_some, Option.pure_def, numbers_digits]
    cases numbers ds <;> simp [toInt_ofInt]

/-- Numbers that are written one after another are read back. -/
theorem decode_flatMap_encode (ns : List Int) : decode (ns.flatMap encode) = some ns := by
  induction ns with
  | nil => simp [decode, numbers]
  | cons n ns ih => rw [List.flatMap_cons, decode_encode_append, ih]; rfl

theorem encode_ne_nil (n : Int) : encode n ≠ [] := by
  simp [encode, digits_ne_nil]

/-- Numbers are written in the characters of the alphabet. -/
theorem mem_alphabet_of_mem_encode {n : Int} {c : Char} (h : c ∈ encode n) : c ∈ alphabet := by
  obtain ⟨d, hd, rfl⟩ := List.mem_map.1 h
  have hi := idxOf?_alphabet d (digits_lt _ d hd)
  obtain ⟨hlt, hget, -⟩ := List.idxOf?_eq_some_iff.1 hi
  rw [← hget]
  exact List.getElem_mem hlt

/-- The sign takes one bit. -/
theorem ofInt_lt {n : Int} {k : Nat} (h : n.natAbs < 2 ^ k) : ofInt n < 2 ^ (k + 1) := by
  unfold ofInt
  split <;> omega

end Vlq

namespace SourceMap

/-! ## Rows of segments -/

/-- The sums of the numbers read so far. -/
structure Totals where
  genCol : Int := 0
  source : Int := 0
  srcLine : Int := 0
  srcCol : Int := 0

namespace Totals

/-- Adds the four numbers of a mapping. -/
def add (s : Totals) : List Int → Option Totals
  | [genCol, source, srcLine, srcCol] =>
    some ⟨s.genCol + genCol, s.source + source, s.srcLine + srcLine, s.srcCol + srcCol⟩
  | _ => none

/-- The file and the mapping that the sums stand for on a line of the generated code. -/
def call? (s : Totals) (sources : List String) (line : Nat) : Option (String × Mapping) := do
  let source ← s.source.toNat?
  let file ← sources[source]?
  return (file, ⟨line, ← s.genCol.toNat?, ← s.srcLine.toNat?, ← s.srcCol.toNat?⟩)

end Totals

/-- Reads the mappings of one line. -/
def decodeRow (sources : List String) (line : Nat) (s : Totals) :
    List Text → Option (List (String × Mapping) × Totals)
  | [] => some ([], s)
  | segment :: row => do
    let s ← s.add (← Vlq.decode segment)
    let call ← s.call? sources line
    let (calls, s) ← decodeRow sources line s row
    return (call :: calls, s)

/-- Reads line after line. The column of the generated code starts anew on each. -/
def decodeRows (sources : List String) (line : Nat) (s : Totals) :
    List (List Text) → Option (List (String × Mapping))
  | [] => some []
  | row :: rows => do
    let (calls, s) ← decodeRow sources line { s with genCol := 0 } row
    return calls ++ (← decodeRows sources (line + 1) s rows)

/-- The segments of a line. -/
def segments (row : Text) : List Text :=
  if row = [] then [] else row.splitOn ','

/-- The text cut at the ends of lines and at commas. -/
def cut (t : Text) : List (List Text) :=
  (t.splitOn ';').map segments

/-- Reads the text of a source map: the files and the mappings that were recorded. -/
def decode (sources : List String) (t : Text) : Option (List (String × Mapping)) :=
  decodeRows sources 0 {} (cut t)

/-- The four numbers that are written for an entry. -/
def differences (r : Reference) (e : MapEntry) : List Int :=
  [e.mapping.genCol - (if e.mapping.genLine - r.line = 0 then r.genCol else 0),
    e.source - r.source, e.mapping.srcLine - r.srcLine, e.mapping.srcCol - r.srcCol]

/-- The text of the four numbers of an entry. -/
def segment (r : Reference) (e : MapEntry) : Text :=
  (differences r e).flatMap Vlq.encode

/-- The segments of entries: those that stand on the line of the reference, and those of each
line after it. -/
def rows (r : Reference) : List MapEntry → List Text × List (List Text)
  | [] => ([], [])
  | e :: es =>
    let (row, more) := rows (referenceAfter r e) es
    match e.mapping.genLine - r.line with
    | 0 => (segment r e :: row, more)
    | k + 1 => ([], List.replicate k [] ++ (segment r e :: row) :: more)

/-- The text of the segments of one line. -/
def joined (row : List Text) : Text :=
  [','].intercalate row

variable {r : Reference} {e : MapEntry} {es : List MapEntry}

/-- An entry is written after the lines that it skips, and after a comma if it is not the first on its
line. -/
theorem encodeEntry_eq (r : Reference) (e : MapEntry) :
    encodeEntry r e = List.replicate (e.mapping.genLine - r.line) ';' ++
      (if e.mapping.genLine - r.line = 0 && !r.first then [','] else []) ++ segment r e := by
  simp [encodeEntry, segment, differences]

theorem joined_cons (s : Text) (row : List Text) :
    joined (s :: row) = s ++ (if row = [] then [] else ',' :: joined row) := by
  cases row with
  | nil => simp [joined]
  | cons s' row => simp [joined, List.intercalate_cons_cons]

theorem intercalate_cons (t : Text) (ts : List Text) :
    [';'].intercalate (t :: ts) = t ++ ts.flatMap (';' :: ·) := by
  induction ts generalizing t with
  | nil => simp
  | cons t' ts ih => rw [List.intercalate_cons_cons, ih]; simp

theorem flatMap_joined_replicate (k : Nat) :
    ((List.replicate k []).map joined).flatMap (';' :: ·) = List.replicate k ';' := by
  induction k with
  | zero => rfl
  | succ k ih => rw [List.replicate_succ, List.map_cons, List.flatMap_cons, ih]; rfl

/-- An entry on the same line comes first in the row. -/
theorem rows_cons_zero (hk : e.mapping.genLine - r.line = 0) :
    rows r (e :: es) = (segment r e :: (rows (referenceAfter r e) es).1,
      (rows (referenceAfter r e) es).2) := by
  simp only [rows, hk]

/-- An entry on a later line ends the row, and leaves the lines between them empty. -/
theorem rows_cons_succ {k : Nat} (hk : e.mapping.genLine - r.line = k + 1) :
    rows r (e :: es) = ([], List.replicate k [] ++
      (segment r e :: (rows (referenceAfter r e) es).1) :: (rows (referenceAfter r e) es).2) := by
  simp only [rows, hk]

/-- The text of entries is that of their rows. A comma stands before the first row if it goes
on a line that has begun. -/
theorem encodeFrom_eq (r : Reference) (es : List MapEntry) :
    encodeFrom r es = (if r.first ∨ (rows r es).1 = [] then [] else [',']) ++
      [';'].intercalate (joined (rows r es).1 :: (rows r es).2.map joined) := by
  induction es generalizing r with
  | nil => simp [encodeFrom, rows, joined]
  | cons e es ih =>
    have hfirst : (referenceAfter r e).first = false := rfl
    rw [encodeFrom, encodeEntry_eq, ih, intercalate_cons, intercalate_cons]
    -- the comma before what follows the entry is the one that joins its row to the entry
    have hcomma : (if (referenceAfter r e).first = true ∨ (rows (referenceAfter r e) es).1 = []
        then [] else [',']) ++ joined (rows (referenceAfter r e) es).1 =
        if (rows (referenceAfter r e) es).1 = [] then []
        else ',' :: joined (rows (referenceAfter r e) es).1 := by
      rw [hfirst]
      split <;> simp_all [joined]
    cases hk : e.mapping.genLine - r.line with
    | zero =>
      rw [rows_cons_zero hk]
      simp only [joined_cons, ← hcomma]
      cases r.first <;> simp
    | succ k =>
      rw [rows_cons_succ hk]
      simp only [List.map_append, List.flatMap_append, flatMap_joined_replicate, List.map_cons,
        List.flatMap_cons, joined_cons, ← hcomma]
      simp [List.replicate_succ', joined]

/-- No separator stands in a segment. -/
theorem mem_segment {c : Char} (h : c ∈ segment r e) : c ∈ Vlq.alphabet := by
  obtain ⟨n, -, hc⟩ := List.mem_flatMap.1 h
  exact Vlq.mem_alphabet_of_mem_encode hc

theorem segment_ne_nil (r : Reference) (e : MapEntry) : segment r e ≠ [] := by
  simp [segment, differences, Vlq.encode_ne_nil]

/-- The segments of the row are those of the entries, each measured from the reference or from
another of the entries. -/
def IsRow (r : Reference) (es : List MapEntry) (row : List Text) : Prop :=
  ∀ s ∈ row, ∃ r' e, e ∈ es ∧ (r' = r ∨ ∃ r₀, ∃ e' ∈ es, r' = referenceAfter r₀ e') ∧
    s = segment r' e

theorem IsRow.cons {row : List Text} (h : IsRow (referenceAfter r e) es row) :
    IsRow r (e :: es) row := by
  intro s hs
  obtain ⟨r', e', he', hr', rfl⟩ := h s hs
  refine ⟨r', e', List.mem_cons_of_mem _ he', .inr ?_, rfl⟩
  rcases hr' with rfl | ⟨r₀, e₀, he₀, rfl⟩
  · exact ⟨r, e, List.mem_cons_self, rfl⟩
  · exact ⟨r₀, e₀, List.mem_cons_of_mem _ he₀, rfl⟩

/-- Every row is made of segments of entries. -/
theorem isRow_rows (r : Reference) (es : List MapEntry) :
    ∀ row ∈ (rows r es).1 :: (rows r es).2, IsRow r es row := by
  induction es generalizing r with
  | nil => simp [rows, IsRow]
  | cons e es ih =>
    have hrow : IsRow r (e :: es) (segment r e :: (rows (referenceAfter r e) es).1) := by
      intro s hs
      rcases List.mem_cons.1 hs with rfl | hs
      · exact ⟨r, e, List.mem_cons_self, .inl rfl, rfl⟩
      · exact (ih (referenceAfter r e) _ List.mem_cons_self).cons s hs
    have hmore : ∀ row ∈ (rows (referenceAfter r e) es).2, IsRow r (e :: es) row :=
      fun row h => (ih (referenceAfter r e) row (List.mem_cons_of_mem _ h)).cons
    intro row h
    cases hk : e.mapping.genLine - r.line with
    | zero =>
      rw [rows_cons_zero hk] at h
      rcases List.mem_cons.1 h with rfl | h
      · exact hrow
      · exact hmore row h
    | succ k =>
      rw [rows_cons_succ hk] at h
      simp only [List.mem_cons, List.mem_append, List.mem_replicate] at h
      rcases h with rfl | ⟨-, rfl⟩ | rfl | h
      · simp [IsRow]
      · simp [IsRow]
      · exact hrow
      · exact hmore row h

/-- The commas show where the segments are. -/
theorem segments_joined {row : List Text} (h : IsRow r es row) :
    segments (joined row) = row := by
  cases row with
  | nil => rfl
  | cons s row =>
    obtain ⟨r', e, -, -, rfl⟩ := h _ List.mem_cons_self
    have hne : joined (segment r' e :: row) ≠ [] := by
      simp [joined_cons, segment_ne_nil]
    rw [segments, if_neg hne]
    apply List.splitOn_intercalate
    · intro s hs hc
      obtain ⟨r', e, -, -, rfl⟩ := h s hs
      exact absurd (mem_segment hc) (by decide)
    · simp

/-- No row has a line separator in it. -/
theorem not_mem_joined {row : List Text} (h : IsRow r es row) : ';' ∉ joined row := by
  induction row with
  | nil => simp [joined]
  | cons s row ih =>
    obtain ⟨r', e, -, -, rfl⟩ := h _ List.mem_cons_self
    have hs : ';' ∉ segment r' e := fun hc => absurd (mem_segment hc) (by decide)
    have hrow : ';' ∉ joined row := ih fun s hs => h s (List.mem_cons_of_mem _ hs)
    rw [joined_cons]
    split <;> simp [hs, hrow]

/-- Cutting the text of entries gives their rows. -/
theorem cut_encodeFrom (es : List MapEntry) :
    cut (encodeFrom {} es) = (rows {} es).1 :: (rows {} es).2 := by
  have hrows := isRow_rows {} es
  have hsplit : ([';'].intercalate (((rows {} es).1 :: (rows {} es).2).map joined)).splitOn ';' =
      ((rows {} es).1 :: (rows {} es).2).map joined := by
    apply List.splitOn_intercalate
    · intro t ht
      obtain ⟨row, hrow, rfl⟩ := List.mem_map.1 ht
      exact not_mem_joined (hrows row hrow)
    · simp
  rw [cut, encodeFrom_eq, if_pos (.inl rfl), List.nil_append, ← List.map_cons, hsplit,
    List.map_map]
  exact (List.map_congr_left fun row hrow => segments_joined (hrows row hrow)).trans
    (List.map_id _)

/-! ## Reading the rows -/

/-- The sums after the entries up to a reference. -/
def Reference.totals (r : Reference) : Totals :=
  ⟨r.genCol, r.source, r.srcLine, r.srcCol⟩

/-- The call that an entry records, if it has a file. -/
def located (sources : List String) (e : MapEntry) : Option (String × Mapping) :=
  sources[e.source]?.map (·, e.mapping)

/-- Reads the rest of a line and the lines after it. -/
def decodeFrom (sources : List String) (line : Nat) (s : Totals)
    (rows : List Text × List (List Text)) : Option (List (String × Mapping)) := do
  let (calls, s) ← decodeRow sources line s rows.1
  return calls ++ (← decodeRows sources (line + 1) s rows.2)

variable {sources : List String} {s : Totals} {line : Nat}

theorem decodeRows_cons (row : List Text) (more : List (List Text)) :
    decodeRows sources line s (row :: more) =
      decodeFrom sources line { s with genCol := 0 } (row, more) := rfl

/-- Empty rows only count lines. -/
theorem decodeRows_replicate (k : Nat) (row : List Text) (more : List (List Text)) :
    decodeRows sources line s (List.replicate k [] ++ row :: more) =
      decodeFrom sources (line + k) { s with genCol := 0 } (row, more) := by
  induction k generalizing line s with
  | zero => rfl
  | succ k ih =>
    rw [List.replicate_succ, List.cons_append, decodeRows_cons]
    simp only [decodeFrom, decodeRow, Option.bind_eq_bind, Option.bind_some, ih]
    rw [Nat.add_right_comm, Nat.add_assoc line]
    simp

/-- The four numbers of an entry lead from the sums before it to its own fields. -/
theorem add_differences (r : Reference) (e : MapEntry) :
    { r.totals with
      genCol := if e.mapping.genLine - r.line = 0 then r.genCol else 0 }.add (differences r e) =
      some (referenceAfter r e).totals := by
  simp only [Totals.add, differences, Reference.totals, referenceAfter, Option.some.injEq,
    Totals.mk.injEq]
  omega

/-- After an entry the totals are those of the entry. -/
theorem call?_totals (r : Reference) (e : MapEntry) :
    (referenceAfter r e).totals.call? sources e.mapping.genLine = located sources e := by
  simp [Totals.call?, located, Reference.totals, referenceAfter, Option.map_eq_bind]
  rfl

/-- **A segment is decoded to the call that it was made from**, and the rest goes on from there. -/
theorem decodeFrom_segment (sources : List String) (r : Reference) (e : MapEntry)
    (row : List Text) (more : List (List Text)) :
    decodeFrom sources e.mapping.genLine { r.totals with
      genCol := if e.mapping.genLine - r.line = 0 then r.genCol else 0 }
      (segment r e :: row, more) = (do
        let call ← located sources e
        let calls ← decodeFrom sources e.mapping.genLine (referenceAfter r e).totals (row, more)
        return call :: calls) := by
  simp only [decodeFrom, decodeRow, segment, Vlq.decode_flatMap_encode, Option.bind_eq_bind,
    Option.bind_some, add_differences, call?_totals]
  cases located sources e with
  | none => rfl
  | some call =>
    cases decodeRow sources e.mapping.genLine (referenceAfter r e).totals row with
    | none => rfl
    | some read => simp [Option.bind_assoc]

/-- Entries in the order of their lines are read back from their rows. -/
theorem decodeFrom_rows (hr : ∀ e ∈ es, r.line ≤ e.mapping.genLine)
    (hes : es.Pairwise fun a b => a.mapping.genLine ≤ b.mapping.genLine) :
    decodeFrom sources r.line r.totals (rows r es) = es.mapM (located sources) := by
  induction es generalizing r with
  | nil => rfl
  | cons e es ih =>
    obtain ⟨he, hes⟩ := List.pairwise_cons.1 hes
    have hle : r.line ≤ e.mapping.genLine := hr e List.mem_cons_self
    have hline : (referenceAfter r e).line = e.mapping.genLine := Nat.max_eq_right hle
    have hrest := ih (by rwa [hline]) hes
    rw [hline] at hrest
    have hread := decodeFrom_segment sources r e (rows (referenceAfter r e) es).1
      (rows (referenceAfter r e) es).2
    rw [List.mapM_cons, ← hrest]
    cases hk : e.mapping.genLine - r.line with
    | zero =>
      have hsame : r.line = e.mapping.genLine := by omega
      rw [if_pos hk] at hread
      rw [rows_cons_zero hk, hsame]
      exact hread
    -- lines between two entries are empty rows, which are read as nothing
    | succ k =>
      have hafter : r.line + 1 + k = e.mapping.genLine := by omega
      rw [if_neg (by omega)] at hread
      rw [rows_cons_succ hk]
      simp only [decodeFrom, decodeRow, Option.bind_eq_bind, Option.bind_some,
        decodeRows_replicate, List.nil_append, hafter, Option.pure_def, Option.bind_fun_some]
      exact hread

/-- The text of entries in the order of their lines is read back. -/
theorem decode_encodeFrom (hes : es.Pairwise fun a b => a.mapping.genLine ≤ b.mapping.genLine) :
    decode sources (encodeFrom {} es) = es.mapM (located sources) := by
  rw [decode, cut_encodeFrom, decodeRows_cons]
  exact decodeFrom_rows (r := {}) (fun e _ => Nat.zero_le _) hes

/-! ## What calls record -/

/-- The map after calls that each record a mapping into a file. -/
def ofCalls (calls : List (String × Mapping)) : SourceMap :=
  calls.foldl (fun m call => m.add call.1 call.2) {}

/-- The map holds the files of the calls in the order of their first use, and an entry for
each call. -/
structure Records (m : SourceMap) (calls : List (String × Mapping)) : Prop where
  sources : m.sources = (calls.map Prod.fst).eraseDups
  entries : m.entries.map (located m.sources) = calls.map some

/-- Files that are added later do not matter to an entry. -/
theorem located_append (files : List String) {c : String × Mapping}
    (h : located sources e = some c) : located (sources ++ files) e = some c := by
  obtain ⟨file, hfile, rfl⟩ := Option.map_eq_some_iff.1 h
  have hlt := (List.getElem?_eq_some_iff.1 hfile).1
  rw [located, List.getElem?_append_left hlt, hfile]
  rfl

/-- One call adds its file, if that is new, and one entry. -/
theorem Records.add {m : SourceMap} {calls : List (String × Mapping)} (h : Records m calls)
    (file : String) (mapping : Mapping) :
    Records (m.add file mapping) (calls ++ [(file, mapping)]) := by
  have hmem : file ∈ m.sources ↔ file ∈ calls.map Prod.fst := by
    rw [h.sources, List.mem_eraseDups]
  unfold SourceMap.add
  split
  case h_1 i hi =>
    obtain ⟨hlt, hget, -⟩ := List.idxOf?_eq_some_iff.1 hi
    have hfile : m.sources[i]? = some file := by rw [List.getElem?_eq_getElem hlt, hget]
    have hold : file ∈ calls.map Prod.fst := hmem.1 (hget ▸ List.getElem_mem hlt)
    constructor
    · rw [List.map_append, List.eraseDups_append, ← h.sources]
      simp [List.removeAll, hold]
    · rw [List.map_append, List.map_append, h.entries]
      simp [located, hfile]
  case h_2 hi =>
    have hnew : file ∉ calls.map Prod.fst := fun hc =>
      List.idxOf?_eq_none_iff.1 hi (hmem.2 hc)
    constructor
    · rw [List.map_append, List.eraseDups_append, ← h.sources]
      simp [List.removeAll, hnew, List.eraseDups_cons]
    -- a new file comes last, so the entries keep their files
    · have hkept : m.entries.map (located (m.sources ++ [file])) = calls.map some := by
        rw [← h.entries]
        apply List.map_congr_left
        intro e he
        obtain ⟨c, -, hc⟩ := List.mem_map.1 (h.entries ▸ List.mem_map_of_mem he)
        rw [located_append _ hc.symm, hc]
      rw [List.map_append, List.map_append, hkept]
      simp [located]

theorem records_foldl {m : SourceMap} {calls : List (String × Mapping)} (h : Records m calls)
    (more : List (String × Mapping)) :
    Records (more.foldl (fun m call => m.add call.1 call.2) m) (calls ++ more) := by
  induction more generalizing m calls with
  | nil => rwa [List.append_nil]
  | cons c more ih =>
    have hc := ih (h.add c.1 c.2)
    rwa [List.append_assoc] at hc

/-- **A map records the calls it was made from**, in order. -/
theorem records_ofCalls (calls : List (String × Mapping)) : Records (ofCalls calls) calls := by
  have hempty : Records {} [] := ⟨rfl, rfl⟩
  exact records_foldl hempty calls

namespace Records

variable {m : SourceMap} {calls : List (String × Mapping)}

/-- Every entry comes from a call. -/
theorem exists_located (h : Records m calls) (he : e ∈ m.entries) :
    ∃ c ∈ calls, located m.sources e = some c := by
  obtain ⟨c, hc, heq⟩ := List.mem_map.1 (h.entries ▸ List.mem_map_of_mem he)
  exact ⟨c, hc, heq.symm⟩

theorem filterMap_entries (h : Records m calls) :
    m.entries.filterMap (located m.sources) = calls := by
  calc m.entries.filterMap (located m.sources)
      = (m.entries.map (located m.sources)).filterMap id := by rw [List.filterMap_map]; rfl
    _ = (calls.map some).filterMap id := by rw [h.entries]
    _ = calls := by rw [List.filterMap_map]; exact List.filterMap_some

end Records

/-! ## The order of entries -/

theorem inOrder_trans (a b c : MapEntry) (hab : inOrder a b = true) (hbc : inOrder b c = true) :
    inOrder a c = true := by
  simp only [inOrder, Bool.or_eq_true, Bool.and_eq_true, decide_eq_true_eq, beq_iff_eq] at *
  omega

/-- Entries are compared by line and column, so one of two comes first. -/
theorem inOrder_total (a b : MapEntry) : (inOrder a b || inOrder b a) = true := by
  simp only [inOrder, Bool.or_eq_true, Bool.and_eq_true, decide_eq_true_eq, beq_iff_eq]
  omega

/-- The mapping has this place in the generated code. -/
def Stands (line col : Nat) (m : Mapping) : Prop :=
  m.genLine = line ∧ m.genCol = col

instance (line col : Nat) (m : Mapping) : Decidable (Stands line col m) :=
  inferInstanceAs (Decidable (_ ∧ _))

/-- Sorting keeps the order of the entries of one place. -/
theorem filter_sorted (m : SourceMap) (line col : Nat) :
    m.sorted.filter (Stands line col ·.mapping) = m.entries.filter (Stands line col ·.mapping) := by
  have hplace : (m.entries.filter (Stands line col ·.mapping)).Pairwise
      fun a b => inOrder a b = true := by
    apply List.Pairwise.imp_of_mem (R := fun _ _ => True)
    · intro a b ha hb _
      obtain ⟨hal, hac⟩ := of_decide_eq_true (List.mem_filter.1 ha).2
      obtain ⟨hbl, hbc⟩ := of_decide_eq_true (List.mem_filter.1 hb).2
      simp only [inOrder, Bool.or_eq_true, Bool.and_eq_true, decide_eq_true_eq, beq_iff_eq]
      omega
    · exact List.pairwise_of_forall fun _ _ => trivial
  have hsub := (List.sublist_mergeSort inOrder_trans inOrder_total hplace
    List.filter_sublist).filter (Stands line col ·.mapping)
  rw [List.filter_filter] at hsub
  simp only [Bool.and_self] at hsub
  have hlen := ((List.mergeSort_perm m.entries inOrder).filter
    (Stands line col ·.mapping)).length_eq
  exact (hsub.eq_of_length hlen.symm).symm

/-- Where every entry is located, none is left out. -/
theorem mapM_eq_filterMap {f : MapEntry → Option (String × Mapping)}
    (h : ∀ e ∈ es, ∃ c, f e = some c) : es.mapM f = some (es.filterMap f) := by
  induction es with
  | nil => rfl
  | cons e es ih =>
    obtain ⟨c, hc⟩ := h e List.mem_cons_self
    rw [List.mapM_cons, hc, ih fun e he => h e (List.mem_cons_of_mem _ he),
      List.filterMap_cons_some hc]
    rfl

/-- What is read are the calls, in the order of their places in the generated code; those of
one place are in the order in which they were made. -/
structure InGeneratedOrder (calls read : List (String × Mapping)) : Prop where
  perm : read.Perm calls
  ordered : read.Pairwise fun a b => a.2.genLine < b.2.genLine ∨
    a.2.genLine = b.2.genLine ∧ a.2.genCol ≤ b.2.genCol
  stable : ∀ line col,
    read.filter (Stands line col ·.2) = calls.filter (Stands line col ·.2)

theorem mapping_of_located {c : String × Mapping} (h : located sources e = some c) :
    c.2 = e.mapping := by
  obtain ⟨file, -, rfl⟩ := Option.map_eq_some_iff.1 h
  rfl

/-- It is the same to look up entries first or to locate them first. -/
theorem filter_filterMap_located (es : List MapEntry) (line col : Nat) :
    (es.filterMap (located sources)).filter (Stands line col ·.2) =
      (es.filter (Stands line col ·.mapping)).filterMap (located sources) := by
  rw [List.filter_filterMap, List.filterMap_filter]
  congr 1
  funext e
  unfold located
  cases sources[e.source]? with
  | none => simp
  | some file => simp [Option.filter]

/-- The sorted entries are those of the calls in the order of their places. -/
theorem Records.inGeneratedOrder {m : SourceMap} {calls : List (String × Mapping)}
    (h : Records m calls) :
    InGeneratedOrder calls (m.sorted.filterMap (located m.sources)) where
  perm := by
    have hperm := (List.mergeSort_perm m.entries inOrder).filterMap (located m.sources)
    rwa [h.filterMap_entries] at hperm
  ordered := by
    apply List.Pairwise.filterMap _ _ (List.pairwise_mergeSort inOrder_trans inOrder_total _)
    intro a b hab c hc d hd
    rw [mapping_of_located hc, mapping_of_located hd]
    simpa only [inOrder, Bool.or_eq_true, Bool.and_eq_true, decide_eq_true_eq, beq_iff_eq] using hab
  stable line col := by
    rw [filter_filterMap_located, filter_sorted, ← filter_filterMap_located, h.filterMap_entries]

/-! ## The width of the numbers -/

/-- All fields of the mapping are less than `n`. -/
def Below (n : Nat) (m : Mapping) : Prop :=
  m.genLine < n ∧ m.genCol < n ∧ m.srcLine < n ∧ m.srcCol < n

/-- With fields below a bound, so are the sizes of the differences. -/
theorem natAbs_lt_of_mem_differences {n : Nat} (hn : 0 < n)
    (hr : r = {} ∨ ∃ r₀ e', (e'.source < n ∧ Below n e'.mapping) ∧ r = referenceAfter r₀ e')
    (he : e.source < n ∧ Below n e.mapping) : ∀ d ∈ differences r e, d.natAbs < n := by
  have hbound : (0 ≤ r.genCol ∧ r.genCol < n) ∧ (0 ≤ r.source ∧ r.source < n) ∧
      (0 ≤ r.srcLine ∧ r.srcLine < n) ∧ (0 ≤ r.srcCol ∧ r.srcCol < n) := by
    rcases hr with rfl | ⟨r₀, e', ⟨hs, hm⟩, rfl⟩
    · simp [hn]
    · unfold Below at hm
      simp only [referenceAfter]
      omega
  obtain ⟨hs, hm⟩ := he
  unfold Below at hm
  intro d hd
  simp only [differences, List.mem_cons, List.not_mem_nil, or_false] at hd
  rcases hd with rfl | rfl | rfl | rfl
  · split <;> omega
  all_goals omega

/-- The number is one of those that the text is made of. -/
def Holds (t : Text) (d : Int) : Prop :=
  ∃ row ∈ cut t, ∃ s ∈ row, ∃ ds, Vlq.decode s = some ds ∧ d ∈ ds

/-- The numbers in a map are below any bound on what is recorded. -/
theorem Records.natAbs_lt {m : SourceMap} {calls : List (String × Mapping)} {n : Nat}
    (h : Records m calls) (hfiles : m.sources.length ≤ n) (hcalls : ∀ c ∈ calls, Below n c.2)
    {d : Int} (hd : Holds m.encode d) : d.natAbs < n := by
  have hfits : ∀ e ∈ m.sorted, e.source < n ∧ Below n e.mapping := by
    intro e he
    have he' : e ∈ m.entries := (List.mergeSort_perm m.entries inOrder).mem_iff.1 he
    obtain ⟨c, hc, hloc⟩ := h.exists_located he'
    obtain ⟨file, hfile, rfl⟩ := Option.map_eq_some_iff.1 hloc
    have hlt := (List.getElem?_eq_some_iff.1 hfile).1
    exact ⟨by omega, hcalls _ hc⟩
  obtain ⟨row, hrow, s, hs, ds, hds, hd⟩ := hd
  rw [SourceMap.encode, cut_encodeFrom] at hrow
  obtain ⟨r, e, he, hr, rfl⟩ := isRow_rows _ _ row hrow s hs
  rw [segment, Vlq.decode_flatMap_encode, Option.some.injEq] at hds
  subst hds
  have hn : 0 < n := by have := (hfits e he).1; omega
  refine natAbs_lt_of_mem_differences hn ?_ (hfits e he) d hd
  rcases hr with rfl | ⟨r₀, e', he', rfl⟩
  · exact .inl rfl
  · exact .inr ⟨r₀, e', hfits e' he', rfl⟩

/-- Reading gives the calls back, none lost and none added, in the stable order of their
places in the generated code, and the files are listed in the order of their first use. Where
all fields are below `2 ^ 62`, each number that is written fits in sixty-three bits with its
sign. -/
theorem decode_encode (calls : List (String × Mapping)) :
    (ofCalls calls).sources = (calls.map Prod.fst).eraseDups ∧
      (∃ read, decode (ofCalls calls).sources (ofCalls calls).encode = some read ∧
        InGeneratedOrder calls read) ∧
      ((∀ c ∈ calls, Below (2 ^ 62) c.2) → (ofCalls calls).sources.length ≤ 2 ^ 62 →
        ∀ d, Holds (ofCalls calls).encode d → Vlq.ofInt d < 2 ^ 63) := by
  have h := records_ofCalls calls
  have hlines : (ofCalls calls).sorted.Pairwise
      fun a b => a.mapping.genLine ≤ b.mapping.genLine := by
    apply (List.pairwise_mergeSort inOrder_trans inOrder_total _).imp
    intro a b hab
    simp only [inOrder, Bool.or_eq_true, Bool.and_eq_true, decide_eq_true_eq, beq_iff_eq] at hab
    omega
  refine ⟨h.sources, ⟨_, ?_, h.inGeneratedOrder⟩, fun hcalls hfiles d hd =>
    Vlq.ofInt_lt (h.natAbs_lt hfiles hcalls hd)⟩
  rw [SourceMap.encode, decode_encodeFrom hlines]
  apply mapM_eq_filterMap
  intro e he
  obtain ⟨c, -, hc⟩ := h.exists_located ((List.mergeSort_perm _ _).mem_iff.1 he)
  exact ⟨c, hc⟩

/-- Calls for two files, not in the order of their places and two of them for one place. -/
def mixedCalls : List (String × Mapping) :=
  [("b", ⟨2, 5, 0, 3⟩), ("a", ⟨0, 1, 2 ^ 62 - 1, 0⟩), ("b", ⟨2, 5, 0, 1⟩)]

theorem decode_encode_mixed :
    ((∀ c ∈ mixedCalls, Below (2 ^ 62) c.2) ∧ (ofCalls mixedCalls).sources.length ≤ 2 ^ 62) ∧
      ∀ d, Holds (ofCalls mixedCalls).encode d → Vlq.ofInt d < 2 ^ 63 := by
  have hbelow : ∀ c ∈ mixedCalls, Below (2 ^ 62) c.2 := by simp [mixedCalls, Below]
  have hfiles : (ofCalls mixedCalls).sources.length ≤ 2 ^ 62 := by decide
  exact ⟨⟨hbelow, hfiles⟩, (decode_encode mixedCalls).2.2 hbelow hfiles⟩

end SourceMap

end Stencil
