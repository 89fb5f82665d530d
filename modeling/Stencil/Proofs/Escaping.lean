import Mathlib.Tactic.IntervalCases
import Stencil.Proofs.Chunks
import Stencil.Proofs.RoundTrip

/-!
# Escaped text renders as itself

A text without `<` becomes a template that stands for the text itself when every `@` in it is
doubled. The template is then made of texts and escaped transitions, and whatever stands around an
`@` it is read in aligned pairs. The render function has one line between its head and its end, with
one string literal in it.

* `Text.unquoted?`: the text that a string literal stands for, by the rules of JSON.
* `Text.unquoted?_quoted`: **a quoted text stands for itself**, on one line.
* `Markup.exists_spelling`: a text with its `@` doubled is printed from texts and escapes.
* `Chunk.renderAll_texts`: texts alone are one line.
* `compile_doubled`: **escaped text renders as itself.**
-/

namespace Stencil

/-! ## String literals -/

namespace Text

/-- The value of a hexadecimal digit. -/
def hexValue? (c : Char) : Option ℕ :=
  if '0' ≤ c ∧ c ≤ '9' then some (c.toNat - '0'.toNat)
  else if 'a' ≤ c ∧ c ≤ 'f' then some (c.toNat - 'a'.toNat + 10)
  else if 'A' ≤ c ∧ c ≤ 'F' then some (c.toNat - 'A'.toNat + 10)
  else none

/-- The unit given by four hexadecimal digits, and the text after them. -/
def unit? : Text → Option (ℕ × Text)
  | a :: b :: c :: d :: t => do
    let a ← hexValue? a
    let b ← hexValue? b
    let c ← hexValue? c
    let d ← hexValue? d
    return (((a * 16 + b) * 16 + c) * 16 + d, t)
  | _ => none

/-- The character that one letter after a backslash stands for. -/
def escape? : Char → Option Char
  | '"' => some '"'
  | '\\' => some '\\'
  | '/' => some '/'
  | 'b' => some (Char.ofNat 0x08)
  | 'f' => some (Char.ofNat 0x0C)
  | 'n' => some '\n'
  | 'r' => some '\r'
  | 't' => some '\t'
  | _ => none

/-- The first character that the inside of a string literal stands for, and what is left of the
literal. Two units that are surrogates stand for one character; a lone surrogate is an error, as is
a control character. -/
def literalChar? : Text → Option (Char × Text)
  | '\\' :: 'u' :: t => do
    let (n, t) ← unit? t
    if 0xD800 ≤ n ∧ n < 0xDC00 then
      match t with
      | '\\' :: 'u' :: t =>
        let (m, t) ← unit? t
        if 0xDC00 ≤ m ∧ m < 0xE000 then
          return (Char.ofNat (0x10000 + (n - 0xD800) * 0x400 + (m - 0xDC00)), t)
        else none
      | _ => none
    else if 0xDC00 ≤ n ∧ n < 0xE000 then none
    else return (Char.ofNat n, t)
  | '\\' :: x :: t => (escape? x).map fun y => (y, t)
  | x :: t => if x = '"' ∨ x = '\\' ∨ x.toNat < 0x20 then none else some (x, t)
  | [] => none

example : literalChar? "\\ud83D\\uDE00!".toList = some ('😀', ['!']) := by decide
example : literalChar? "\\ud83d!".toList = none := by decide

/-- An escape is not empty. -/
theorem length_unit? {t u : Text} {n : ℕ} (h : unit? t = some (n, u)) : u.length < t.length := by
  unfold unit? at h
  split at h
  · simp only [Option.bind_eq_bind, Option.bind_eq_some_iff, Option.pure_def, Option.some.injEq,
      Prod.mk.injEq] at h
    obtain ⟨_, -, _, -, _, -, _, -, -, rfl⟩ := h
    simp only [List.length_cons]
    omega
  · cases h

/-- Nor is a character of a literal. -/
theorem length_literalChar? {t u : Text} {x : Char} (h : literalChar? t = some (x, u)) :
    u.length < t.length := by
  unfold literalChar? at h
  split at h
  · -- one unit, or two that are surrogates
    simp only [Option.bind_eq_bind, Option.bind_eq_some_iff] at h
    obtain ⟨⟨n, v⟩, hunit, h⟩ := h
    have hlength := length_unit? hunit
    simp only [List.length_cons]
    split at h
    · dsimp only at h
      split at h
      · simp only [Option.bind_eq_some_iff] at h
        obtain ⟨⟨m, w⟩, hlow, h⟩ := h
        have hlow' := length_unit? hlow
        simp only [List.length_cons] at hlength
        split at h
        · simp only [Option.pure_def, Option.some.injEq, Prod.mk.injEq] at h
          rw [← h.2]
          omega
        · cases h
      · cases h
    · split at h
      · cases h
      · simp only [Option.pure_def, Option.some.injEq, Prod.mk.injEq] at h
        rw [← h.2]
        omega
  · obtain ⟨y, -, h⟩ := Option.map_eq_some_iff.1 h
    cases h
    simp only [List.length_cons]
    omega
  · split at h
    · cases h
    · cases h; simp
  · cases h

/-- The text that a string literal stands for after its first quote: it goes up to a quote, with
which the literal ends. -/
def unquotedRest? (t : Text) : Option Text :=
  if t = ['"'] then some []
  else
    match _h : literalChar? t with
    | some (x, u) => (unquotedRest? u).map (x :: ·)
    | none => none
termination_by t.length
decreasing_by exact length_literalChar? _h

/-- The text that a string literal stands for; nothing if it is not a literal. -/
def unquoted? : Text → Option Text
  | '"' :: t => unquotedRest? t
  | _ => none

theorem unquotedRest?_of_literalChar {t u : Text} {x : Char} (h : literalChar? t = some (x, u)) :
    unquotedRest? t = (unquotedRest? u).map (x :: ·) := by
  have hquote : t ≠ ['"'] := by
    intro ht
    rw [ht] at h
    simp [literalChar?] at h
  rw [unquotedRest?, if_neg hquote]
  split
  · rename_i y v hchar
    obtain ⟨rfl, rfl⟩ : y = x ∧ v = u := by simpa [hchar] using h
    rfl
  · rename_i hnone
    rw [hnone] at h
    cases h

/-- Control characters are written as escapes, and read back from them. -/
theorem literalChar?_control : ∀ n < 0x20, ∀ t : Text,
    literalChar? (quotedChar (Char.ofNat n) ++ t) = some (Char.ofNat n, t) := by
  intro n hn t
  interval_cases n <;> rfl

/-- A character that is neither a control character nor a quote nor a backslash is written as it
stands. -/
theorem quotedChar_plain {c : Char} (hc : 0x20 ≤ c.toNat) (hquote : c.toNat ≠ 0x22)
    (hslash : c.toNat ≠ 0x5C) : quotedChar c = [c] := by
  unfold quotedChar
  split
  all_goals first | omega | skip
  rw [if_neg (by omega)]

/-- **A quoted character is read as itself**, whatever follows. -/
theorem literalChar?_quotedChar (c : Char) (t : Text) :
    literalChar? (quotedChar c ++ t) = some (c, t) := by
  by_cases hcontrol : c.toNat < 0x20
  · simpa using literalChar?_control c.toNat hcontrol t
  by_cases hquote : c = '"'
  · rw [hquote]; rfl
  by_cases hslash : c = '\\'
  · rw [hslash]; rfl
  have hplain : quotedChar c = [c] := by
    refine quotedChar_plain (by omega) (fun h => hquote (Char.toNat_inj.1 h))
      (fun h => hslash (Char.toNat_inj.1 h))
  rw [hplain, List.singleton_append, literalChar?]
  · rw [if_neg (by simp [hquote, hslash, hcontrol])]
  all_goals intros; simp_all

/-- **A quoted text is read as itself.** -/
theorem unquotedRest?_quotedChars (t : Text) :
    unquotedRest? (t.flatMap quotedChar ++ ['"']) = some t := by
  induction t with
  | nil => rw [unquotedRest?]; rfl
  | cons c t ih =>
    rw [List.flatMap_cons, List.append_assoc, unquotedRest?_of_literalChar (literalChar?_quotedChar c _), ih]
    rfl

/-- **A quoted text stands for itself.** -/
theorem unquoted?_quoted (t : Text) : unquoted? t.quoted = some t :=
  unquotedRest?_quotedChars t

theorem control_notMem_quotedChar (c : Char) : ∀ x ∈ quotedChar c, 0x20 ≤ x.toNat := by
  -- what is written in the place of a character is a fixed text, judged by evaluation
  have hcontrol : ∀ n < 0x20,
      (quotedChar (Char.ofNat n)).all (fun x => Nat.ble 0x20 x.toNat) = true := by
    intro n hn
    interval_cases n <;> rfl
  have hall : (quotedChar c).all (fun x => Nat.ble 0x20 x.toNat) = true := by
    by_cases hc : c.toNat < 0x20
    · simpa only [Char.ofNat_toNat] using hcontrol c.toNat hc
    by_cases hquote : c = '"'
    · rw [hquote]; rfl
    by_cases hslash : c = '\\'
    · rw [hslash]; rfl
    rw [quotedChar_plain (by omega) (fun h => hquote (Char.toNat_inj.1 h))
      (fun h => hslash (Char.toNat_inj.1 h))]
    simp only [List.all_cons, List.all_nil, Bool.and_true]
    exact Nat.ble_eq_true_of_le (by omega)
  intro x hx
  exact Nat.le_of_ble_eq_true (List.all_eq_true.1 hall x hx)

/-- A quoted text stands on one line: there is no control character in it. -/
theorem control_notMem_quoted (t : Text) : ∀ x ∈ t.quoted, 0x20 ≤ x.toNat := by
  intro x hx
  simp only [quoted, List.mem_cons, List.mem_append, List.mem_flatMap, List.not_mem_nil, or_false] at hx
  obtain rfl | ⟨c, -, hx⟩ | rfl := hx
  · decide
  · exact control_notMem_quotedChar c x hx
  · decide

end Text

/-! ## Doubled transitions -/

/-- The text with every `@` doubled. -/
def Text.doubled (t : Text) : Text :=
  t.flatMap fun x => if x = '@' then ['@', '@'] else [x]

namespace Markup

/-- What an item of text stands for. -/
def Item.value : Item → Text
  | text t => t.text
  | escape => ['@']
  | _ => []

/-- Text as it stands, or an escaped transition. -/
def Item.IsPlain (i : Item) : Prop :=
  (∃ t, i = .text t) ∨ i = .escape

/-- Items that spell a text: texts and escapes only, and no two texts side by side. -/
structure Spelling (t : Text) (is : List Item) : Prop where
  print : Item.printAll is = t.doubled
  value : is.flatMap Item.value = t
  plain : ∀ i ∈ is, i.IsPlain
  apart : is.IsChain fun i j => i.isText = true → j.isText = false

namespace Spelling

variable {t : Text} {is : List Item}

/-- A transition character is spelled by an escape. -/
theorem escape (h : Spelling t is) : Spelling ('@' :: t) (.escape :: is) where
  print := by
    rw [Item.printAll, h.print]; rfl
  value := by
    rw [List.flatMap_cons, h.value]; rfl
  plain := List.forall_mem_cons.2 ⟨.inr rfl, h.plain⟩
  apart := h.apart.cons (by simp [Item.isText])

theorem doubled_cons {x : Char} (hx : x ≠ '@') (t : Text) :
    Text.doubled (x :: t) = x :: t.doubled := by
  rw [Text.doubled, List.flatMap_cons, if_neg hx]; rfl

/-- A character in front of a text is an item of its own. -/
theorem start (h : Spelling t is) {x : Char} (hx : x ≠ '<' ∧ x ≠ '@')
    (his : ∀ i ∈ is.head?, i.isText = false) :
    Spelling (x :: t) (.text ⟨[x], List.cons_ne_nil x [], List.forall_mem_singleton.2 hx⟩ :: is) where
  print := by
    rw [Item.printAll, h.print, doubled_cons hx.2]; rfl
  value := by
    rw [List.flatMap_cons, h.value]; rfl
  plain := List.forall_mem_cons.2 ⟨.inl ⟨_, rfl⟩, h.plain⟩
  apart := h.apart.cons fun i hi _ => his i hi

/-- A character in front of a text joins the text that the items start with. -/
theorem grow {u : PlainText} (h : Spelling t (.text u :: is)) {x : Char} (hx : x ≠ '<' ∧ x ≠ '@') :
    Spelling (x :: t)
      (.text ⟨x :: u.text, List.cons_ne_nil _ _, List.forall_mem_cons.2 ⟨hx, u.plain⟩⟩ :: is) where
  print := by
    rw [doubled_cons hx.2, ← h.print]; rfl
  value := by
    rw [← h.value]; rfl
  plain := List.forall_mem_cons.2 ⟨.inl ⟨_, rfl⟩, fun i hi => h.plain i (List.mem_cons_of_mem _ hi)⟩
  apart := by
    have hapart := List.isChain_cons.1 h.apart
    exact hapart.2.cons fun i hi _ => hapart.1 i hi rfl

end Spelling

/-- **A text without `<` and with its `@` doubled is printed from texts and escapes.** -/
theorem exists_spelling (t : Text) (ht : '<' ∉ t) : ∃ is, Spelling t is := by
  induction t with
  | nil => exact ⟨[], rfl, rfl, by simp, .nil⟩
  | cons x t ih =>
    obtain ⟨is, h⟩ := ih (List.not_mem_of_not_mem_cons ht)
    by_cases hx : x = '@'
    · rw [hx]
      exact ⟨_, h.escape⟩
    have hplain : x ≠ '<' ∧ x ≠ '@' := ⟨fun h => ht (by simp [h]), hx⟩
    -- the character starts a text unless the items start with one already
    cases is with
    | nil => exact ⟨_, h.start hplain (by simp)⟩
    | cons i is =>
      rcases h.plain i List.mem_cons_self with ⟨u, rfl⟩ | rfl
      · exact ⟨_, h.grow hplain⟩
      · exact ⟨_, h.start hplain (by simp [Item.isText])⟩

/-- Plain items fit if no two texts meet. -/
theorem fitsAll_of_plain {is : List Item} (hplain : ∀ i ∈ is, i.IsPlain)
    (hapart : is.IsChain fun i j => i.isText = true → j.isText = false) (previous : Option Char) :
    Item.fitsAll previous [] is = true := by
  induction is generalizing previous with
  | nil => rw [Item.fitsAll]
  | cons i is ih =>
    obtain ⟨hi, his⟩ := List.forall_mem_cons.1 hplain
    obtain ⟨hnext, hrest⟩ := List.isChain_cons.1 hapart
    have hfits : i.fits previous (Item.printAll is ++ []) = true := by
      rcases hi with ⟨t, rfl⟩ | rfl
      · rfl
      · rfl
    have hheads : (i.isText && is.head?.any Item.isText) = false := by
      cases is with
      | nil => simp
      | cons j is =>
        have hj := hnext j rfl
        cases hit : i.isText with
        | false => rfl
        | true => simpa using hj hit
    rw [Item.fitsAll, hfits, hheads, ih his hrest]
    rfl

theorem nestingAll_of_plain {is : List Item} (hplain : ∀ i ∈ is, i.IsPlain) :
    Item.nestingAll is = 0 := by
  induction is with
  | nil => rw [Item.nestingAll]
  | cons i is ih =>
    obtain ⟨hi, his⟩ := List.forall_mem_cons.1 hplain
    have hitem : i.nesting = 0 := by
      rcases hi with ⟨t, rfl⟩ | rfl
      · rfl
      · rfl
    rw [Item.nestingAll, hitem, ih his]
    rfl

end Markup

/-! ## Texts are one line -/

namespace Chunk

/-- Chunks that are texts and spell one text together. -/
structure Texts (cs : List Chunk) (t : Text) : Prop where
  isText : ∀ c ∈ cs, c.isText = true
  content : cs.flatMap Chunk.content = t

namespace Texts

theorem nil : Texts [] [] :=
  ⟨by simp, rfl⟩

theorem lit (t : Text) : Texts [.lit t] t :=
  ⟨List.forall_mem_singleton.2 rfl, List.append_nil t⟩

/-- Texts in a row. -/
theorem append {cs ds : List Chunk} {t u : Text} (h : Texts cs t) (h' : Texts ds u) :
    Texts (cs ++ ds) (t ++ u) where
  isText := List.forall_mem_append.2 ⟨h.isText, h'.isText⟩
  content := by rw [List.flatMap_append, h.content, h'.content]

/-- The texts that leave no trace are empty. -/
theorem filter {cs : List Chunk} {t : Text} (h : Texts cs t) : Texts (cs.filter isKept) t where
  isText c hc := h.isText c (List.mem_of_mem_filter hc)
  content := by
    obtain ⟨htext, rfl⟩ := h
    induction cs with
    | nil => rfl
    | cons c cs ih =>
      obtain ⟨hc, hcs⟩ := List.forall_mem_cons.1 htext
      rw [List.filter_cons, List.flatMap_cons, ← ih hcs]
      split
      · rfl
      · rename_i hkept
        cases c with
        | lit t => simpa [isKept, Chunk.content] using hkept
        | _ => cases hc

/-- Adjacent texts are joined until one is left. -/
theorem merge {c : Chunk} {cs : List Chunk} {t : Text} (h : Texts (c :: cs) t) :
    Chunk.merge (c :: cs) = [.lit t] := by
  induction cs generalizing c t with
  | nil =>
    obtain ⟨htext, rfl⟩ := h
    cases c with
    | lit t => simp [Chunk.merge, Chunk.content]
    | _ => simp [Chunk.isText] at htext
  | cons d cs ih =>
    obtain ⟨htext, rfl⟩ := h
    obtain ⟨hc, hcs⟩ := List.forall_mem_cons.1 htext
    cases c with
    | lit t =>
      rw [Chunk.merge, ih ⟨hcs, rfl⟩]
      rfl
    | _ => cases hc

end Texts

/-- **Texts alone are one line**, if there is anything in them. -/
theorem renderAll_texts {cs : List Chunk} {t : Text} (h : Texts cs t) (ht : t ≠ []) :
    renderAll cs = (lit t).render := by
  have hkept := h.filter
  cases hcs : cs.filter isKept with
  | nil =>
    rw [hcs] at hkept
    exact absurd hkept.content.symm ht
  | cons c kept =>
    rw [hcs] at hkept
    rw [renderAll, hcs, hkept.merge]
    simp

end Chunk

namespace Markup

theorem blankChunks_texts (p : Position) (t : Text) : Chunk.Texts (Node.blankChunks (blankAt p t)) t := by
  unfold blankAt
  split
  · rename_i ht
    rw [ht]
    exact .nil
  · exact .lit t

/-- The node of a text is a leaf, with blanks around it or of blanks only. -/
theorem textNode_eq (p : Position) (t : Text) : ∃ k l trivia,
    Item.textNode p t = .leaf k (.token l.text) l trivia ∧ (k = .trivia ∨ k = .literal) := by
  unfold Item.textNode
  dsimp only
  split
  · exact ⟨_, _, _, rfl, .inl rfl⟩
  · exact ⟨_, _, _, rfl, .inr rfl⟩

/-- The chunks of the node of a text spell the text: its blanks are not lost. -/
theorem chunks_textNode (p : Position) (t : Text) (b : Bool) (parent : Option Kind) :
    Chunk.Texts (Node.chunks '@' b parent (Item.textNode p t)) t := by
  unfold Item.textNode
  dsimp only
  split
  · exact .lit t
  · generalize hlead : t.takeWhile Text.isBlank = lead
    generalize hbody : t.dropWhile Text.isBlank = body
    have hcut : Text.trimRight body ++ body.drop (Text.trimRight body).length = body := by
      nth_rewrite 1 [List.prefix_iff_eq_take.1 ⟨_, Text.trimRight_append_blanks body⟩]
      exact List.take_append_drop _ body
    have hchunks := ((blankChunks_texts p lead).append (.lit (Text.trimRight body))).append
      (blankChunks_texts ((p.after lead).after (Text.trimRight body)) (body.drop (Text.trimRight body).length))
    have hall : lead ++ Text.trimRight body ++ body.drop (Text.trimRight body).length = t := by
      rw [List.append_assoc, hcut, ← hlead, ← hbody, List.takeWhile_append_dropWhile]
    exact hall ▸ hchunks

/-- **Plain items say their text.** -/
theorem chunksAll_plain {is : List Item} (hplain : ∀ i ∈ is, i.IsPlain) (p : Position)
    (b : Bool) (parent : Option Kind) :
    Chunk.Texts (Node.chunksAll '@' b parent (Item.nodesAll p is)) (is.flatMap Item.value) := by
  induction is generalizing p with
  | nil => exact .nil
  | cons i is ih =>
    obtain ⟨hi, his⟩ := List.forall_mem_cons.1 hplain
    have hitem : Chunk.Texts (Node.chunks '@' b parent (i.node p)) i.value := by
      rcases hi with ⟨t, rfl⟩ | rfl
      · exact chunks_textNode p t.text b parent
      · exact .lit ['@']
    exact hitem.append (ih his _)

/-- Texts and escapes are leaves, and none of them is code. -/
theorem kinds_plain {is : List Item} (hplain : ∀ i ∈ is, i.IsPlain) (p : Position) :
    ∀ n ∈ Node.descendantsAll (Item.nodesAll p is), n.kind ≠ .codeBlock ∧ n.kind ≠ .codeExpression := by
  induction is generalizing p with
  | nil => intro n hn; cases hn
  | cons i is ih =>
    obtain ⟨hi, his⟩ := List.forall_mem_cons.1 hplain
    intro n hn
    rw [Item.nodesAll, Node.descendantsAll, List.mem_append] at hn
    rcases hn with hn | hn
    · rcases hi with ⟨t, rfl⟩ | rfl
      · obtain ⟨k, l, trivia, hnode, hk⟩ := textNode_eq p t.text
        rw [Item.node, hnode] at hn
        rw [List.mem_singleton.1 hn]
        rcases hk with rfl | rfl <;> simp [Node.kind]
      · rw [List.mem_singleton.1 hn]
        simp [Node.kind]
    · exact ih his _ n hn

/-- The template of items that spell a text. -/
def spelled (t : Text) (is : List Item) : Template :=
  ⟨[.ofChildren .document (Item.nodesAll {} is),
    .marker .endOfFile (.empty (({} : Position).after t.doubled))], []⟩

namespace Spelling

variable {t : Text} {is : List Item}

/-- A text with its `@` doubled is read back as the items that spell it. -/
theorem document (h : Spelling t is) :
    (Template.document {} t.doubled).1 = .ofChildren .document (Item.nodesAll {} is) ∧
      (Template.document {} t.doubled).2.pos = ({} : Position).after t.doubled ∧
      (Template.document {} t.doubled).2.diagnostics = [] := by
  rw [← h.print]
  exact document_print ⟨is, fitsAll_of_plain h.plain h.apart none⟩ rfl
    ((nestingAll_of_plain h.plain).trans_le (Nat.zero_le _))

/-- **A doubled text is parsed to its spelling.** -/
theorem parse_eq (h : Spelling t is) : Template.parse {} t.doubled = .ok (spelled t is) := by
  obtain ⟨hnode, hpos, hdiagnostics⟩ := h.document
  have hlanguage : ({} : ParseOptions).language ∈ Registry.standard.languages := by decide
  rw [parse_eq_document t.doubled hlanguage, hnode, hpos, hdiagnostics]
  rfl

theorem shapedAll (h : Spelling t is) : Node.ShapedAll '@' (spelled t is).nodes := by
  have hshaped := shaped_template {} t.doubled
  obtain ⟨hnode, hpos, -⟩ := h.document
  rwa [hnode, hpos] at hshaped

/-- The document and the end of the file add nothing to the chunks of the items. -/
theorem chunks (h : Spelling t is) : Chunk.Texts (Node.chunksAll '@' false none (spelled t is).nodes) t := by
  have hchunks := chunksAll_plain h.plain {} false (some .document)
  rw [h.value] at hchunks
  simpa [spelled, Node.chunksAll, Node.chunks, Node.ofChildren, Node.marker, Node.blankChunks,
    Node.leafChunks, Kind.putsInElement] using hchunks

/-- It is rendered as one literal. -/
theorem code_output (h : Spelling t is) (hne : t ≠ []) (options : RenderOptions) :
    ((spelled t is).output options).code =
      Chunk.head options.functionName ++ (Chunk.lit t).render ++ ['}', '\n'] := by
  have hbrace : .brace ∉ (spelled t is).nodes.map Node.kind := by
    simp [spelled, Node.ofChildren, Node.marker, Node.kind]
  rw [Template.code_output options h.shapedAll hbrace, Chunk.function, Chunk.renderAll_texts h.chunks hne]
  rfl

theorem kinds (h : Spelling t is) :
    ∀ n ∈ Node.descendantsAll (spelled t is).nodes, n.kind ≠ .codeBlock ∧ n.kind ≠ .codeExpression := by
  intro n hn
  simp only [spelled, Node.descendantsAll, Node.ofChildren, Node.descendants, Node.marker, List.append_nil,
    List.cons_append, List.mem_cons, List.mem_append, List.not_mem_nil, or_false] at hn
  rcases hn with rfl | hn | rfl
  · simp [Node.kind]
  · exact kinds_plain h.plain {} n hn
  · simp [Node.kind]

end Spelling

end Markup

/-- **Escaped text renders as itself.** A text with something in it and without `<` is a template
when its `@` are doubled. Nothing is reported, there is no code in the tree, and the render function
writes one string literal, which is on one line and stands for the text. -/
theorem compile_doubled (options : RenderOptions) (t : Text) (hne : t ≠ []) (hfree : '<' ∉ t) :
    ∃ r c literal, Template.parse {} t.doubled = .ok r ∧ r.diagnostics = [] ∧
      (∀ n ∈ Node.descendantsAll r.nodes, n.kind ≠ .codeBlock ∧ n.kind ≠ .codeExpression) ∧
      compile {} options t.doubled = .ok c ∧
      c.rendered.code = Chunk.head options.functionName ++
        ("  ".toList ++ "__writer.writeLiteral(".toList ++ literal ++ ");\n".toList) ++ ['}', '\n'] ∧
      Text.unquoted? literal = some t ∧ ∀ x ∈ literal, 0x20 ≤ x.toNat := by
  obtain ⟨is, h⟩ := Markup.exists_spelling t hfree
  have hcompile : compile {} options t.doubled = .ok ((Markup.spelled t is).compiled options) := by
    rw [compile, h.parse_eq]; rfl
  exact ⟨_, _, t.quoted, h.parse_eq, rfl, h.kinds, hcompile, h.code_output hne options, t.unquoted?_quoted,
    t.control_notMem_quoted⟩

theorem compile_doubled_mixed :
    (['a', '@', '@', '1', ' ', '@', '{', '"', '\n'] : Text) ≠ [] ∧
      '<' ∉ ['a', '@', '@', '1', ' ', '@', '{', '"', '\n'] ∧
      ∃ r c literal, Template.parse {} (Text.doubled ['a', '@', '@', '1', ' ', '@', '{', '"', '\n']) = .ok r ∧
        r.diagnostics = [] ∧
        (∀ n ∈ Node.descendantsAll r.nodes, n.kind ≠ .codeBlock ∧ n.kind ≠ .codeExpression) ∧
        compile {} {} (Text.doubled ['a', '@', '@', '1', ' ', '@', '{', '"', '\n']) = .ok c ∧
        c.rendered.code = Chunk.head "render" ++
          ("  ".toList ++ "__writer.writeLiteral(".toList ++ literal ++ ");\n".toList) ++ ['}', '\n'] ∧
        Text.unquoted? literal = some ['a', '@', '@', '1', ' ', '@', '{', '"', '\n'] ∧
        ∀ x ∈ literal, 0x20 ≤ x.toNat :=
  ⟨by decide, by decide, compile_doubled {} _ (by decide) (by decide)⟩

end Stencil
