import Stencil.Proofs.Highlighting

/-!
# Reading relative tokens back

An editor takes semantic tokens as differences, five numbers for each, and adds them up again. It keeps
the line and the column that it has come to, as the encoder does, so the two agree token by token as long
as no token stands before the one ahead of it. Sorting sees to that.

* `SemanticToken.decodeFrom_encodeAfter`: **one token is read back**, and the reader stands where the
  encoder stands.
* `SemanticToken.decodeFrom_encodeFrom`: so are all tokens that come in order.
* `SemanticToken.inTokenOrder_mergeSort`: what is encoded is the given tokens in the stable order of
  their places.
* `tokens_reread`: **tokens in any order are read back in the order of their places**, and those of a
  template as they were collected.
-/

namespace Stencil

theorem TokenClass.number_lt (k : TokenClass) : k.number < 8 := by
  cases k <;> decide

/-- A class is found in the legend under its number. -/
theorem TokenClass.legend_number (k : TokenClass) : legend[k.number]? = some k := by
  cases k <;> rfl

namespace SemanticToken

/-! ## The reader -/

/-- The tokens that numbers stand for, read on from a line and a column. Of five numbers the first leads to
the line of a token, the second to its column, counted from the column before on the same line and from the
start on a new one; then come its length and the number of its class. The fifth number says nothing. -/
def decodeFrom (line col : ℕ) : List UInt32 → Option (List SemanticToken)
  | [] => some []
  | lines :: cols :: length :: number :: _ :: more =>
    let line := line + lines.toNat
    let col := if lines = 0 then col + cols.toNat else cols.toNat
    TokenClass.legend[number.toNat]?.bind fun kind =>
      (decodeFrom line col more).map (⟨line, col, length.toNat, kind⟩ :: ·)
  | _ => none

/-- The tokens that numbers stand for. -/
def decode (numbers : List UInt32) : Option (List SemanticToken) :=
  decodeFrom 0 0 numbers

/-- The line, the column and the length are less than `n`. -/
def Below (n : ℕ) (s : SemanticToken) : Prop :=
  s.line < n ∧ s.startCol < n ∧ s.length < n

instance (n : ℕ) (s : SemanticToken) : Decidable (s.Below n) :=
  inferInstanceAs (Decidable (_ ∧ _))

theorem toNat_toUInt32 {n : ℕ} (h : n < 2 ^ 32) : n.toUInt32.toNat = n :=
  UInt32.toNat_ofNat_of_lt' h

theorem toUInt32_eq_zero {n : ℕ} (h : n < 2 ^ 32) : n.toUInt32 = 0 ↔ n = 0 := by
  rw [← UInt32.toNat_inj, toNat_toUInt32 h]; rfl

variable {line col : ℕ} {s : SemanticToken} {ts : List SemanticToken}

/-- **One token is read back**, and the reader goes on from its line and column. -/
theorem decodeFrom_encodeAfter (hs : s.Below (2 ^ 32))
    (hnext : line < s.line ∨ line = s.line ∧ col ≤ s.startCol) (more : List UInt32) :
    decodeFrom line col (encodeAfter line col s ++ more) =
      (decodeFrom s.line s.startCol more).map (s :: ·) := by
  obtain ⟨hline, hcol, hlength⟩ := hs
  have hnumber : s.kind.number < 2 ^ 32 := by have := s.kind.number_lt; omega
  have hlines : s.line - line < 2 ^ 32 := by omega
  have hcols : (if s.line - line = 0 then s.startCol - col else s.startCol) < 2 ^ 32 := by
    split <;> omega
  simp only [encodeAfter, List.cons_append, List.nil_append, decodeFrom, toNat_toUInt32 hlines,
    toNat_toUInt32 hcols, toNat_toUInt32 hlength, toNat_toUInt32 hnumber, toUInt32_eq_zero hlines,
    TokenClass.legend_number, Option.bind_some]
  have hline' : line + (s.line - line) = s.line := by omega
  have hcol' : (if s.line - line = 0 then col + (if s.line - line = 0 then s.startCol - col else s.startCol)
      else if s.line - line = 0 then s.startCol - col else s.startCol) = s.startCol := by
    split <;> omega
  rw [hline', hcol']

/-- **Tokens that come in order are read back.** The induction is on the tokens, over the place that both
sides have come to. -/
theorem decodeFrom_encodeFrom (hts : ∀ s ∈ ts, s.Below (2 ^ 32))
    (hfirst : ∀ s ∈ ts, line < s.line ∨ line = s.line ∧ col ≤ s.startCol)
    (hsorted : ts.Pairwise fun a b => inOrder a b = true) :
    decodeFrom line col (encodeFrom line col ts) = some ts := by
  induction ts generalizing line col with
  | nil => rfl
  | cons s ts ih =>
    obtain ⟨hs, hts⟩ := List.forall_mem_cons.1 hts
    obtain ⟨hnext, hsorted⟩ := List.pairwise_cons.1 hsorted
    have hrest := ih hts (fun s' hs' => inOrder_iff.1 (hnext s' hs')) hsorted
    rw [encodeFrom, decodeFrom_encodeAfter hs (hfirst s List.mem_cons_self), hrest]
    rfl

/-! ## The order of tokens -/

theorem inOrder_trans (a b c : SemanticToken) (hab : inOrder a b = true) (hbc : inOrder b c = true) :
    inOrder a c = true := by
  rw [inOrder_iff] at *
  omega

/-- Tokens are compared by line and column, so one of two comes first. -/
theorem inOrder_total (a b : SemanticToken) : (inOrder a b || inOrder b a) = true := by
  rw [Bool.or_eq_true, inOrder_iff, inOrder_iff]
  omega

/-- Whether a token starts at a place. -/
def startsAt (line col : ℕ) (s : SemanticToken) : Bool :=
  s.line == line && s.startCol == col

/-- What is read are the given tokens, in the order of their places; those of one place are in the order in
which they were given. -/
structure InTokenOrder (given read : List SemanticToken) : Prop where
  perm : read.Perm given
  ordered : read.Pairwise fun a b => a.line < b.line ∨ a.line = b.line ∧ a.startCol ≤ b.startCol
  stable : ∀ line col, read.filter (startsAt line col) = given.filter (startsAt line col)

/-- Sorting keeps the order of the tokens of one place. -/
theorem filter_mergeSort (tokens : List SemanticToken) (line col : ℕ) :
    (tokens.mergeSort inOrder).filter (startsAt line col) = tokens.filter (startsAt line col) := by
  have hplace : (tokens.filter (startsAt line col)).Pairwise fun a b => inOrder a b = true := by
    refine (List.pairwise_of_forall (R := fun _ _ => True) fun _ _ => trivial).imp_of_mem ?_
    intro a b ha hb _
    have ha := (List.mem_filter.1 ha).2
    have hb := (List.mem_filter.1 hb).2
    simp only [startsAt, Bool.and_eq_true, beq_iff_eq] at ha hb
    rw [inOrder_iff]
    omega
  -- those of one place are in order, so they are a part of the sorted list, and they are as many
  have hsub := (List.sublist_mergeSort inOrder_trans inOrder_total hplace List.filter_sublist).filter
    (startsAt line col)
  rw [List.filter_filter] at hsub
  simp only [Bool.and_self] at hsub
  have hlength := ((List.mergeSort_perm tokens inOrder).filter (startsAt line col)).length_eq
  exact (hsub.eq_of_length hlength.symm).symm

theorem pairwise_mergeSort_inOrder (tokens : List SemanticToken) :
    (tokens.mergeSort inOrder).Pairwise fun a b => inOrder a b = true :=
  List.pairwise_mergeSort inOrder_trans inOrder_total tokens

/-- Sorting puts tokens in order and keeps them. -/
theorem inTokenOrder_mergeSort (tokens : List SemanticToken) :
    InTokenOrder tokens (tokens.mergeSort inOrder) where
  perm := List.mergeSort_perm tokens inOrder
  ordered := (pairwise_mergeSort_inOrder tokens).imp inOrder_iff.1
  stable := filter_mergeSort tokens

/-- **What is encoded is read back** in the order in which it was sorted. -/
theorem decode_encode_mergeSort {tokens : List SemanticToken} (h : ∀ s ∈ tokens, s.Below (2 ^ 32)) :
    decode (encode tokens) = some (tokens.mergeSort inOrder) := by
  refine decodeFrom_encodeFrom (fun s hs => ?_) (fun s _ => by omega) (pairwise_mergeSort_inOrder tokens)
  exact h s ((List.mergeSort_perm tokens inOrder).mem_iff.1 hs)

/-- **The tokens of a template are in order as they are collected**, for their cells are those of the text. -/
theorem mergeSort_ofNodes (options : ParseOptions) (t : Text) {nodes : List Node}
    (hnodes : nodes = [(Template.document options t).1,
      .marker .endOfFile (.empty (Template.document options t).2.pos)]) :
    (ofNodes false nodes).mergeSort inOrder = ofNodes false nodes := by
  obtain ⟨ts, htile, -⟩ := @template_tile options t
  rw [← hnodes] at htile
  have hwithin := cells_ofNodes false nodes ▸ Piece.cells_sublist htile
  have hprecedes := precedes_of_cells (length_pos_of_mem_ofNodes false nodes)
    ((Text.cells_pairwise _).sublist hwithin)
  refine List.mergeSort_of_pairwise (hprecedes.imp fun hab => inOrder_iff.2 ?_)
  unfold Precedes at hab
  omega

end SemanticToken

open SemanticToken

/-- **Relative tokens are read back.** Tokens in any order, with numbers below `2 ^ 32`, have five numbers
each, none of their differences is below zero, and reading the numbers gives the tokens in the stable order
of their places. The tokens of a template are in that order, and are read back as they were collected. -/
theorem tokens_reread :
    (∀ tokens : List SemanticToken, (∀ s ∈ tokens, s.Below (2 ^ 32)) →
      (encode tokens).length = 5 * tokens.length ∧ encode? tokens = some (encode tokens) ∧
        ∃ read, decode (encode tokens) = some read ∧ InTokenOrder tokens read) ∧
    ∀ (options : ParseOptions) (t : Text), options.language ∈ Registry.standard.languages →
      ∃ r, Template.parse options t = .ok r ∧
        ((∀ s ∈ ofNodes false r.nodes, s.Below (2 ^ 32)) →
          decode (encode (ofNodes false r.nodes)) = some (ofNodes false r.nodes)) := by
  refine ⟨fun tokens h => ⟨?_, encode?_eq tokens, _, decode_encode_mergeSort h, inTokenOrder_mergeSort tokens⟩,
    fun options t h => ?_⟩
  · rw [encode, length_encodeFrom, (List.mergeSort_perm tokens inOrder).length_eq]
  · refine ⟨_, parse_eq_document t h, fun hbelow => ?_⟩
    rw [decode_encode_mergeSort hbelow, mergeSort_ofNodes options t rfl]

/-- Three tokens out of order, two of them at one place and one with the largest numbers there are. -/
def mixedTokens : List SemanticToken :=
  [⟨2 ^ 32 - 1, 2 ^ 32 - 1, 2 ^ 32 - 1, .code⟩, ⟨0, 6, 1, .operator⟩, ⟨0, 2, 3, .tag⟩, ⟨0, 6, 0, .text⟩]

theorem tokens_reread_mixed :
    (∀ s ∈ mixedTokens, s.Below (2 ^ 32)) ∧
      (∃ read, decode (encode mixedTokens) = some read ∧ InTokenOrder mixedTokens read) ∧
      ({} : ParseOptions).language ∈ Registry.standard.languages ∧
      ∃ r, Template.parse {} "<p>\n@x".toList = .ok r ∧ (∀ s ∈ ofNodes false r.nodes, s.Below (2 ^ 32)) ∧
        decode (encode (ofNodes false r.nodes)) = some (ofNodes false r.nodes) := by
  have hmixed : ∀ s ∈ mixedTokens, s.Below (2 ^ 32) := by decide
  obtain ⟨r, hr, hread⟩ := tokens_reread.2 {} "<p>\n@x".toList (by decide)
  have hbelow : ∀ s ∈ ofNodes false r.nodes, s.Below (2 ^ 32) := by
    have hall : (Template.parse {} "<p>\n@x".toList).toOption.all
        (fun r => (ofNodes false r.nodes).all fun s => decide (s.Below (2 ^ 32))) = true := by decide +kernel
    rw [hr] at hall
    simpa [Except.toOption] using hall
  exact ⟨hmixed, (tokens_reread.1 mixedTokens hmixed).2.2, by decide, r, hr, hbelow, hread hbelow⟩

end Stencil
