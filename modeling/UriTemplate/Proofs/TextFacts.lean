import Mathlib.Data.List.Induction
import UriTemplate.Text

/-!
# Facts about texts

Texts are taken apart in four ways: as decimal digits, after a front of one kind, as
the fields between separators, and at the first or last occurrence of a character.  This module says
that each of them undoes the corresponding way of writing.

* `toNat_ofNat` and `ofNat_toNat`: digits without a leading zero are the digits
  of the number that they spell.
* `takeWhile_append_of_head?` and `dropWhile_append_of_head?`: a front of one kind is
  taken off up to the first character of another kind.
* `fields_intercalate`: fields that hold no separator come back from their join.
* `splitOnce_append` and `splitOnce_eq_some`: the first occurrence of a
  character is the one with no other before it.
* `splitLast_append`: the last occurrence is the one with no other after it.

Rows are put in the order of a text that each member has, by a sort that keeps equals.

* `pairwise_mergeSort`: no member comes after one with a greater text.
* `pair_sublist_mergeSort`: members with one text stay in their order.
-/

namespace UriTemplate.Text

/-! ## Decimal numbers -/

theorem toNat_eq_ofDigitChars (digits : Text) :
    toNat digits = Nat.ofDigitChars 10 digits 0 := rfl

@[simp] theorem toNat_ofNat (n : Nat) : toNat (ofNat n) = n := by
  rw [toNat_eq_ofDigitChars, ofNat]
  exact Nat.ofDigitChars_ten_toDigits

theorem ofNat_ne_nil (n : Nat) : ofNat n ≠ [] :=
  Nat.toDigits_ne_nil

theorem isDigit_of_mem_ofNat {n : Nat} {c : Char} (h : c ∈ ofNat n) : c.isDigit = true :=
  Nat.isDigit_of_mem_toDigits (by omega) (by omega) h

theorem digitValue_lt {c : Char} (h : c.isDigit = true) : digitValue c < 10 := by
  have hc : 48 ≤ c.toNat ∧ c.toNat ≤ 57 := by
    simpa [Char.isDigit, Char.le_def, UInt32.le_iff_toNat_le] using h
  show c.toNat - 48 < 10
  omega

/-- A digit is the character of its value. -/
theorem digitChar_digitValue {c : Char} (h : c.isDigit = true) :
    (digitValue c).digitChar = c := by
  have hlt : digitValue c < 10 := digitValue_lt h
  have hc : 48 ≤ c.toNat := by
    have := h
    simp only [Char.isDigit, Bool.and_eq_true, decide_eq_true_eq, ge_iff_le,
      UInt32.le_iff_toNat_le] at this
    exact this.1
  apply Char.toNat_inj.1
  rw [Nat.toNat_digitChar_of_lt_ten hlt]
  show 48 + (c.toNat - 48) = c.toNat
  omega

/-- Digits without a leading zero are the digits of their number.  The induction
is on the last digit, which is the remainder by ten. -/
theorem ofNat_toNat {digits : Text} (hne : digits ≠ [])
    (hdigit : ∀ c ∈ digits, c.isDigit = true) (hzero : digits.head? ≠ some '0') :
    ofNat (toNat digits) = digits := by
  induction digits using List.reverseRecOn with
  | nil => exact absurd rfl hne
  | append_singleton digits c ih =>
    have hc : c.isDigit = true := hdigit c (by simp)
    rw [toNat_append_digit]
    by_cases hnil : digits = []
    · subst hnil
      rw [toNat_nil, Nat.mul_zero, Nat.zero_add, ofNat,
        Nat.toDigits_of_lt_base (digitValue_lt hc), digitChar_digitValue hc]
      rfl
    · have hhead : digits.head? ≠ some '0' := by
        cases digits with
        | nil => exact absurd rfl hnil
        | cons d digits => simpa using hzero
      have hread : ofNat (toNat digits) = digits :=
        ih hnil (fun d hd => hdigit d (by simp [hd])) hhead
      have hpos : 0 < toNat digits := by
        rcases Nat.eq_zero_or_pos (toNat digits) with h0 | hpos
        · rw [h0, ofNat, Nat.toDigits_zero] at hread
          rw [← hread] at hhead
          exact absurd rfl hhead
        · exact hpos
      rw [ofNat, ← Nat.toDigits_append_toDigits (by omega) hpos (digitValue_lt hc),
        Nat.toDigits_of_lt_base (digitValue_lt hc), digitChar_digitValue hc]
      rw [ofNat] at hread
      rw [hread]

/-- A positive number is written without a leading zero. -/
theorem head?_ofNat_ne_zero {n : Nat} (hn : 0 < n) : (ofNat n).head? ≠ some '0' := by
  induction n using Nat.strongRecOn with
  | ind n ih =>
    by_cases hlt : n < 10
    · rw [ofNat, Nat.toDigits_of_lt_base hlt]
      simpa using Nat.ne_of_gt hn
    · have hdiv : 0 < n / 10 := by omega
      have hhead := ih (n / 10) (by omega) hdiv
      rw [ofNat, Nat.toDigits_of_base_le (by omega) (by omega)]
      change (ofNat (n / 10) ++ _).head? ≠ some '0'
      cases hread : ofNat (n / 10) with
      | nil => exact absurd hread (ofNat_ne_nil (n / 10))
      | cons c rest => simpa [hread] using hhead

/-! ## Fronts -/

/-- A front of one kind ends before a character of another kind. -/
theorem takeWhile_append_of_head? {p : Char → Bool} {s t : Text} (hs : ∀ c ∈ s, p c = true)
    (ht : ∀ c, t.head? = some c → p c = false) : (s ++ t).takeWhile p = s := by
  rw [List.takeWhile_append_of_pos hs]
  cases t with
  | nil => simp
  | cons c t => rw [List.takeWhile_cons_of_neg (by simp [ht c rfl]), List.append_nil]

theorem dropWhile_append_of_head? {p : Char → Bool} {s t : Text} (hs : ∀ c ∈ s, p c = true)
    (ht : ∀ c, t.head? = some c → p c = false) : (s ++ t).dropWhile p = t := by
  rw [List.dropWhile_append_of_pos hs]
  cases t with
  | nil => rfl
  | cons c t => rw [List.dropWhile_cons_of_neg (by simp [ht c rfl])]

/-! ## Fields -/

/-- A text without the separator is one field. -/
theorem fields_of_not_mem {sep : Char} {t : Text} (h : sep ∉ t) : fields sep t = [t] := by
  induction t with
  | nil => rfl
  | cons c t ih =>
    have hc : c ≠ sep := fun heq => h (by simp [heq])
    have ht : sep ∉ t := fun hmem => h (by simp [hmem])
    rw [fields, if_neg hc, ih ht]

/-- A field ends at the first separator. -/
theorem fields_append {sep : Char} {part : Text} (h : sep ∉ part) (t : Text) :
    fields sep (part ++ sep :: t) = part :: fields sep t := by
  induction part with
  | nil => rw [List.nil_append, fields, if_pos rfl]
  | cons c part ih =>
    have hc : c ≠ sep := fun heq => h (by simp [heq])
    have hpart : sep ∉ part := fun hmem => h (by simp [hmem])
    rw [List.cons_append, fields, if_neg hc, ih hpart]

/-- Fields come back from their join. -/
theorem fields_intercalate {sep : Char} {parts : List Text} (hne : parts ≠ [])
    (h : ∀ part ∈ parts, sep ∉ part) :
    fields sep (List.intercalate [sep] parts) = parts := by
  induction parts with
  | nil => exact absurd rfl hne
  | cons part parts ih =>
    have hpart : sep ∉ part := h part List.mem_cons_self
    cases parts with
    | nil =>
      rw [List.intercalate_singleton]
      exact fields_of_not_mem hpart
    | cons next parts =>
      have hrest := ih (by simp) fun p hp => h p (List.mem_cons_of_mem _ hp)
      rw [List.intercalate_cons_cons, List.append_assoc, List.singleton_append,
        fields_append hpart, hrest]

theorem intercalate_concat {α : Type} (sep : List α) {parts : List (List α)} (h : parts ≠ [])
    (part : List α) :
    List.intercalate sep (parts ++ [part]) = List.intercalate sep parts ++ (sep ++ part) := by
  induction parts with
  | nil => exact absurd rfl h
  | cons first parts ih =>
    rw [List.cons_append, List.intercalate_cons_of_ne_nil (by simp)]
    cases parts with
    | nil => simp
    | cons next parts =>
      rw [ih (List.cons_ne_nil _ _), List.intercalate_cons_cons]
      simp only [List.append_assoc]

/-- What is added to the last part of a row is added to the row. -/
theorem intercalate_concat_append {α : Type} (sep : List α) (parts : List (List α))
    (s t : List α) :
    List.intercalate sep (parts ++ [s ++ t]) = List.intercalate sep (parts ++ [s]) ++ t := by
  cases parts with
  | nil => simp
  | cons part parts =>
    have hne : part :: parts ≠ [] := List.cons_ne_nil part parts
    rw [intercalate_concat sep hne, intercalate_concat sep hne]
    simp only [List.append_assoc]

/-! ## The first occurrence of a character -/

theorem splitOnce_append {c : Char} {before : Text} (h : c ∉ before) (after : Text) :
    splitOnce c (before ++ c :: after) = some (before, after) := by
  induction before with
  | nil => rw [List.nil_append, splitOnce, if_pos rfl]
  | cons d before ih =>
    have hd : d ≠ c := fun heq => h (by simp [heq])
    have hbefore : c ∉ before := fun hmem => h (by simp [hmem])
    rw [List.cons_append, splitOnce, if_neg hd, ih hbefore]
    rfl

theorem not_mem_of_splitOnce {c : Char} {t before after : Text}
    (h : splitOnce c t = some (before, after)) : c ∉ before := by
  induction t generalizing before with
  | nil => simp [splitOnce] at h
  | cons d t ih =>
    rw [splitOnce] at h
    split at h
    · simp_all
    · rename_i hd
      simp only [Option.map_eq_some_iff, Prod.exists, Prod.mk.injEq] at h
      obtain ⟨b, a, hba, rfl, rfl⟩ := h
      simp only [List.mem_cons, not_or]
      exact ⟨fun heq => hd heq.symm, ih hba⟩

theorem splitOnce_eq_some {c : Char} {t before after : Text} :
    splitOnce c t = some (before, after) ↔ t = before ++ c :: after ∧ c ∉ before := by
  constructor
  · intro h
    exact ⟨append_of_splitOnce h, not_mem_of_splitOnce h⟩
  · intro h
    obtain ⟨rfl, h⟩ := h
    exact splitOnce_append h after

theorem splitOnce_eq_none {c : Char} {t : Text} : splitOnce c t = none ↔ c ∉ t := by
  induction t with
  | nil => simp [splitOnce]
  | cons d t ih =>
    rw [splitOnce]
    by_cases hd : d = c
    · simp [hd]
    · simp [hd, ih, Ne.symm hd]

/-! ## The last occurrence of a character -/

theorem splitLast_append {c : Char} {after : Text} (h : c ∉ after) (before : Text) :
    splitLast c (before ++ c :: after) = some (before, after) := by
  have hreverse : (before ++ c :: after).reverse = after.reverse ++ c :: before.reverse := by simp
  rw [splitLast, hreverse, splitOnce_append (by simpa using h), Option.map_some]
  simp

/-! ## Rows in order -/

section Order

variable {α : Type} (key : α → Text)

theorem notLt_trans (a b c : α) (h : (!decide (key b < key a)) = true)
    (h' : (!decide (key c < key b)) = true) : (!decide (key c < key a)) = true := by
  simp only [Bool.not_eq_true', decide_eq_false_iff_not, List.not_lt] at h h' ⊢
  exact List.le_trans h h'

theorem notLt_total (a b : α) :
    (!decide (key b < key a) || !decide (key a < key b)) = true := by
  simp only [Bool.or_eq_true, Bool.not_eq_true', decide_eq_false_iff_not, List.not_lt]
  exact List.le_total (key a) (key b)

/-- In a row that is sorted by a text, no member comes after one with a greater text. -/
theorem pairwise_mergeSort (l : List α) :
    (l.mergeSort fun a b => !decide (key b < key a)).Pairwise fun a b => ¬key b < key a :=
  (List.pairwise_mergeSort (notLt_trans key) (notLt_total key) l).imp fun h => by simpa using h

/-- Members with one text stay in their order. -/
theorem pair_sublist_mergeSort {l : List α} {a b : α} (hkey : key a = key b)
    (h : [a, b].Sublist l) :
    [a, b].Sublist (l.mergeSort fun a b => !decide (key b < key a)) :=
  List.pair_sublist_mergeSort (notLt_trans key) (notLt_total key)
    (by rw [hkey, decide_eq_false (List.lt_irrefl (key b))]; rfl) h

end Order

end UriTemplate.Text
