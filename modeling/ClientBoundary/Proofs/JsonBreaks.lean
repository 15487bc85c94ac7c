import ClientBoundary.Proofs.JsonGrammar
import ClientBoundary.Text.Utf8

/-!
# Line breaks in JSON

A file is read with a line feed for every line break. In JSON a line break stands between the parts of
a value only, where it is a space like others, so this changes nothing: of two texts that become the
same, both are the same value, and both meet an integer with too many digits or none does.

* `Alike` — texts that become the same.
* `ValueAt.alike`, `LongIn.alike` — texts that are alike begin with the same value, and have too many
  digits alike.
* `isText_unifyBreaks_iff`, `meetsLongInteger_unifyBreaks_iff` — breaks can be unified.
-/

namespace ClientBoundary

namespace Text

-- ---------------------------------------------------------------------------------------------
-- Texts that become the same
-- ---------------------------------------------------------------------------------------------

/-- Texts that differ in their line breaks only. -/
def Alike (t t' : Text) : Prop := unifyBreaks t = unifyBreaks t'

/-- A text without controls, line breaks among them. -/
def Printed (w : Text) : Prop := ∀ p ∈ w, 0x20 ≤ p.toNat

theorem unifyBreaks_cons {p : CodePoint} (h : p ≠ .char '\r') (t : Text) :
    unifyBreaks (p :: t) = p :: unifyBreaks t := by
  cases t with
  | nil => simp [unifyBreaks]
  | cons q t => simp [unifyBreaks, h]

/-- A carriage return becomes a line feed, or is dropped before one. -/
theorem unifyBreaks_return (t : Text) :
    unifyBreaks (.char '\r' :: t) = .char '\n' :: unifyBreaks t ∨
      ∃ u, t = .char '\n' :: u ∧ unifyBreaks (.char '\r' :: t) = .char '\n' :: unifyBreaks u := by
  by_cases h : ∃ u, t = .char '\n' :: u
  · obtain ⟨u, rfl⟩ := h
    exact .inr ⟨u, rfl, by rw [unifyBreaks]⟩
  · left
    rw [unifyBreaks]
    exact fun u hu => h ⟨u, hu⟩

theorem unifyBreaks_append {w : Text} (hw : Printed w) (t : Text) :
    unifyBreaks (w ++ t) = w ++ unifyBreaks t := by
  induction w with
  | nil => rfl
  | cons p w ih =>
    obtain ⟨hp, hw⟩ := List.forall_mem_cons.mp hw
    rw [List.cons_append, unifyBreaks_cons, ih hw, List.cons_append]
    rintro rfl
    exact absurd hp (by decide)

/-- What is printed before a text is there before its breaks are unified. -/
theorem exists_append {w : Text} (hw : Printed w) : ∀ {t r : Text}, unifyBreaks t = w ++ r →
    ∃ u, t = w ++ u ∧ unifyBreaks u = r := by
  induction w with
  | nil => exact fun {t r} h => ⟨t, rfl, h⟩
  | cons p w ih =>
    intro t r h
    obtain ⟨hp, hRest⟩ := List.forall_mem_cons.mp hw
    have hFeed : p ≠ .char '\n' := by
      rintro rfl
      exact absurd hp (by decide)
    cases t with
    | nil => cases h
    | cons q t =>
      by_cases hq : q = .char '\r'
      · subst hq
        obtain hReturn | ⟨u, -, hReturn⟩ := unifyBreaks_return t
        · rw [hReturn] at h
          exact absurd (List.cons.inj h).1.symm hFeed
        · rw [hReturn] at h
          exact absurd (List.cons.inj h).1.symm hFeed
      · rw [unifyBreaks_cons hq] at h
        obtain ⟨rfl, hText⟩ := List.cons.inj h
        obtain ⟨u, rfl, hu⟩ := ih hRest hText
        exact ⟨u, rfl, hu⟩

theorem return_notMem_unifyBreaks (t : Text) : .char '\r' ∉ unifyBreaks t := by
  fun_induction unifyBreaks t with
  | case1 => exact List.not_mem_nil
  | case2 t ih => simpa using ih
  | case3 t _ ih => simpa using ih
  | case4 p t _ hp ih => simpa [Ne.symm hp] using ih

theorem unifyBreaks_of_notMem {t : Text} (h : .char '\r' ∉ t) : unifyBreaks t = t := by
  induction t with
  | nil => rfl
  | cons p t ih =>
    obtain ⟨hp, ht⟩ := not_or.mp (List.mem_cons.not.mp h)
    rw [unifyBreaks_cons (Ne.symm hp), ih ht]

theorem alike_unifyBreaks (t : Text) : Alike t (unifyBreaks t) :=
  (unifyBreaks_of_notMem (return_notMem_unifyBreaks t)).symm

theorem eq_nil_of_alike {t : Text} (h : Alike [] t) : t = [] := by
  cases t with
  | nil => rfl
  | cons p t =>
    by_cases hp : p = .char '\r'
    · subst hp
      obtain hReturn | ⟨u, -, hReturn⟩ := unifyBreaks_return t
      · cases h.trans hReturn
      · cases h.trans hReturn
    · cases h.trans (unifyBreaks_cons hp t)

theorem Alike.append {w r t : Text} (h : Alike (w ++ r) t) (hw : Printed w) :
    ∃ u, t = w ++ u ∧ Alike r u := by
  rw [Alike, unifyBreaks_append hw] at h
  obtain ⟨u, rfl, hu⟩ := exists_append hw h.symm
  exact ⟨u, rfl, hu.symm⟩

end Text

namespace Json

open Text (Alike Printed unifyBreaks unifyBreaks_cons unifyBreaks_return)

open Json.Reader (isAsciiDigit words)

-- ---------------------------------------------------------------------------------------------
-- Parts of a text that have no line breaks
-- ---------------------------------------------------------------------------------------------

theorem printed_of_isHexDigit {p : CodePoint} (h : p.isHexDigit = true) : 0x20 ≤ p.toNat := by
  cases p with
  | surrogate i => cases h
  | char c =>
    simp only [CodePoint.isHexDigit, CodePoint.hexDigit?, Char.le_def, UInt32.le_iff_toNat_le] at h
    rw [CodePoint.toNat, Char.toNat]
    grind

theorem IsEscapeOf.printed {p : CodePoint} {e : Text} (h : IsEscapeOf p e) : Printed e := by
  obtain ⟨a, b, c, d, hNumber, rfl⟩ := h
  refine List.forall_mem_cons.mpr ⟨by decide, List.forall_mem_cons.mpr ⟨by decide, ?_⟩⟩
  exact fun q hq => printed_of_isHexDigit (hNumber.hex q hq)

theorem Body.printed {w v : Text} (h : Body w v) : Printed w := by
  induction h with
  | nil => exact fun _ hp => nomatch hp
  | plain _ _ hControl _ ih => exact List.forall_mem_cons.mpr ⟨hControl, ih⟩
  | letter h _ ih =>
    have hAll : (letters.map Prod.fst).all (fun c => 0x20 ≤ c.toNat) = true := by decide
    have hLetter := List.all_eq_true.mp hAll _ (List.mem_map_of_mem h)
    exact List.forall_mem_cons.mpr ⟨by decide, List.forall_mem_cons.mpr
      ⟨of_decide_eq_true hLetter, ih⟩⟩
  | number h _ _ ih => exact List.forall_mem_append.mpr ⟨h.printed, ih⟩
  | pair h h' _ _ _ _ ih =>
    exact List.forall_mem_append.mpr ⟨h.printed, List.forall_mem_append.mpr ⟨h'.printed, ih⟩⟩

theorem printed_digit {p : CodePoint} (h : isAsciiDigit p = true) : 0x20 ≤ p.toNat := by
  simp only [isAsciiDigit, Bool.and_eq_true, decide_eq_true_eq] at h
  omega

theorem IsDigits.printed {w : Text} (h : IsDigits w) : Printed w :=
  fun p hp => printed_digit (h.digits p hp)

theorem IsSign.printed {w : Text} (h : IsSign w) : Printed w := by
  obtain rfl | rfl := h
  · exact fun _ hp => nomatch hp
  · exact List.forall_mem_singleton.mpr (by decide)

theorem IsWhole.printed {w : Text} (h : IsWhole w) : Printed w := by
  cases h with
  | zero => exact List.forall_mem_singleton.mpr (by decide)
  | digits h _ => exact h.printed

theorem IsFraction.printed {w : Text} (h : IsFraction w) : Printed w := by
  obtain ⟨h⟩ := h
  exact List.forall_mem_cons.mpr ⟨by decide, h.printed⟩

theorem IsExponent.printed {w : Text} (h : IsExponent w) : Printed w := by
  obtain ⟨he, hSign, h⟩ := h
  refine List.forall_mem_cons.mpr ⟨?_, List.forall_mem_append.mpr ⟨?_, h.printed⟩⟩
  · obtain rfl | rfl := he
    · decide
    · decide
  · obtain rfl | rfl | rfl := hSign
    · exact fun _ hp => nomatch hp
    · exact List.forall_mem_singleton.mpr (by decide)
    · exact List.forall_mem_singleton.mpr (by decide)

theorem IsNumber.printed {w : Text} (h : IsNumber w) : Printed w := by
  obtain ⟨sign, whole, fraction, exponent, hSign, hWhole, hFraction, hExponent, rfl⟩ := h
  have hFraction : Printed fraction := by
    obtain rfl | hFraction := hFraction
    · exact fun _ hp => nomatch hp
    · exact hFraction.printed
  have hExponent : Printed exponent := by
    obtain rfl | hExponent := hExponent
    · exact fun _ hp => nomatch hp
    · exact hExponent.printed
  simp only [Printed, List.forall_mem_append] at *
  exact ⟨hSign.printed, hWhole.printed, hFraction, hExponent⟩

theorem printed_word {w : Text} {j : Json} (h : (w, j) ∈ words) : Printed w := by
  have hAll : (words.map Prod.fst).all (fun w => w.all fun p => 0x20 ≤ p.toNat) = true := by decide
  intro p hp
  have hWord := List.all_eq_true.mp hAll w (List.mem_map_of_mem h)
  exact of_decide_eq_true (List.all_eq_true.mp hWord p hp)

-- ---------------------------------------------------------------------------------------------
-- Parts of texts that are alike
-- ---------------------------------------------------------------------------------------------

section

variable {t t' r : Text}

theorem Spaces.cons {p : CodePoint} (hp : p ∈ spaces) (h : Spaces t r) : Spaces (p :: t) r := by
  obtain ⟨s, hs, rfl⟩ := h
  exact ⟨p :: s, List.forall_mem_cons.mpr ⟨hp, hs⟩, rfl⟩

theorem spaces_unifyBreaks (h : Spaces t r) : Spaces (unifyBreaks t) (unifyBreaks r) := by
  obtain ⟨s, hs, rfl⟩ := h
  induction s with
  | nil => exact ⟨[], List.forall_mem_nil _, rfl⟩
  | cons p s ih =>
    obtain ⟨hp, hRest⟩ := List.forall_mem_cons.mp hs
    have hSpaces := ih hRest
    rw [List.cons_append]
    by_cases hReturn : p = .char '\r'
    · subst hReturn
      obtain hText | ⟨u, hFeed, hText⟩ := unifyBreaks_return (s ++ r)
      · rw [hText]
        exact hSpaces.cons (by decide)
      · rwa [hText, ← unifyBreaks_cons (by decide), ← hFeed]
    · rw [unifyBreaks_cons hReturn]
      exact hSpaces.cons hp

/-- Spaces before a text are there before its breaks are unified. -/
theorem exists_spaces {s : Text} (hs : ∀ p ∈ s, p ∈ spaces) : ∀ {t r : Text},
    unifyBreaks t = s ++ r → ∃ u, Spaces t u ∧ unifyBreaks u = r := by
  induction s with
  | nil => exact fun {t r} h => ⟨t, ⟨[], List.forall_mem_nil _, rfl⟩, h⟩
  | cons p s ih =>
    intro t r h
    obtain ⟨hp, hRest⟩ := List.forall_mem_cons.mp hs
    cases t with
    | nil => cases h
    | cons q t =>
      by_cases hq : q = .char '\r'
      · subst hq
        obtain hReturn | ⟨v, rfl, hReturn⟩ := unifyBreaks_return t
        · rw [hReturn] at h
          obtain ⟨u, hSpaces, hu⟩ := ih hRest (List.cons.inj h).2
          exact ⟨u, hSpaces.cons (by decide), hu⟩
        · rw [hReturn] at h
          obtain ⟨u, hSpaces, hu⟩ := ih hRest (List.cons.inj h).2
          exact ⟨u, (hSpaces.cons (by decide)).cons (by decide), hu⟩
      · rw [unifyBreaks_cons hq] at h
        obtain ⟨rfl, hText⟩ := List.cons.inj h
        obtain ⟨u, hSpaces, hu⟩ := ih hRest hText
        exact ⟨u, hSpaces.cons hp, hu⟩

theorem Spaces.alike (h : Spaces t r) (ht : Alike t t') : ∃ r', Spaces t' r' ∧ Alike r r' := by
  obtain ⟨s, hs, hText⟩ := spaces_unifyBreaks h
  obtain ⟨r', hSpaces, hr⟩ := exists_spaces hs (ht.symm.trans hText)
  exact ⟨r', hSpaces, hr.symm⟩

/-- A character after spaces, and the spaces and the character in a text that is like it. -/
theorem Spaces.alike_cons {x : Char} (h : Spaces t (.char x :: r)) (ht : Alike t t')
    (hx : 0x20 ≤ x.toNat) : ∃ r', Spaces t' (.char x :: r') ∧ Alike r r' := by
  obtain ⟨u, hSpaces, hu⟩ := h.alike ht
  obtain ⟨r', rfl, hr⟩ := hu.append (w := [.char x]) (List.forall_mem_singleton.mpr hx)
  exact ⟨r', hSpaces, hr⟩

theorem MarkAt.alike {x : Char} (h : MarkAt x t r) (ht : Alike t t') (hx : 0x20 ≤ x.toNat) :
    ∃ r', MarkAt x t' r' ∧ Alike r r' := by
  obtain ⟨u, hBefore, hAfter⟩ := h
  obtain ⟨u', hBefore', hu⟩ := hBefore.alike_cons ht hx
  obtain ⟨r', hAfter', hr⟩ := hAfter.alike hu
  exact ⟨r', ⟨u', hBefore', hAfter'⟩, hr⟩

theorem StringAt.alike {v : Text} (h : StringAt t v r) (ht : Alike t t') :
    ∃ r', StringAt t' v r' ∧ Alike r r' := by
  obtain ⟨w, hBody, rfl⟩ := h
  have hQuote : Printed [.char '"'] := List.forall_mem_singleton.mpr (by decide)
  obtain ⟨u, rfl, hu⟩ := ht.append (w := [.char '"']) hQuote
  obtain ⟨v, rfl, hv⟩ := hu.append hBody.printed
  obtain ⟨r', rfl, hr⟩ := hv.append (w := [.char '"']) hQuote
  exact ⟨r', ⟨w, hBody, rfl⟩, hr⟩

theorem KeyAt.alike {k : Text} (h : KeyAt t k r) (ht : Alike t t') :
    ∃ r', KeyAt t' k r' ∧ Alike r r' := by
  obtain ⟨u, hString, hColon⟩ := h
  obtain ⟨u', hString', hu⟩ := hString.alike ht
  obtain ⟨r', hColon', hr⟩ := hColon.alike hu (by decide)
  exact ⟨r', ⟨u', hString', hColon'⟩, hr⟩

theorem Continues.alike (h : Continues t) (ht : Alike t t') : Continues t' := by
  cases h with
  | digit h =>
    obtain ⟨u, rfl, -⟩ := ht.append (w := [_]) (List.forall_mem_singleton.mpr (printed_digit h))
    exact .digit h
  | fraction h =>
    obtain ⟨u, rfl, -⟩ := ht.append h.printed
    exact .fraction h
  | exponent h =>
    obtain ⟨u, rfl, -⟩ := ht.append h.printed
    exact .exponent h

theorem LongIntegerAt.alike (h : LongIntegerAt t) (ht : Alike t t') : LongIntegerAt t' := by
  obtain ⟨sign, whole, rest, hSign, hWhole, hMany, hRest, rfl⟩ := h
  obtain ⟨u, rfl, hu⟩ := ht.append hSign.printed
  obtain ⟨rest', rfl, hRest'⟩ := hu.append hWhole.printed
  exact ⟨sign, whole, rest', hSign, hWhole, hMany, fun h => hRest (h.alike hRest'.symm), rfl⟩

end

mutual

/-- A text that is like another begins with the same value, and what is left is alike. -/
theorem ValueAt.alike {t t' r : Text} {j : Json} (h : ValueAt t j r) (ht : Alike t t') :
    ∃ r', ValueAt t' j r' ∧ Alike r r' := by
  cases h with
  | string h =>
    obtain ⟨r', h', hr⟩ := h.alike ht
    exact ⟨r', .string h', hr⟩
  | word h =>
    obtain ⟨r', rfl, hr⟩ := ht.append (printed_word h)
    exact ⟨r', .word h, hr⟩
  | number h =>
    obtain ⟨r', rfl, hr⟩ := ht.append h.printed
    exact ⟨r', .number h, hr⟩
  | emptyArray h =>
    obtain ⟨u, rfl, hu⟩ := ht.append (w := [_]) (List.forall_mem_singleton.mpr (by decide))
    obtain ⟨r', h', hr⟩ := h.alike_cons hu (by decide)
    exact ⟨r', .emptyArray h', hr⟩
  | array hSpaces h =>
    obtain ⟨u, rfl, hu⟩ := ht.append (w := [_]) (List.forall_mem_singleton.mpr (by decide))
    obtain ⟨v, hSpaces', hv⟩ := hSpaces.alike hu
    obtain ⟨r', h', hr⟩ := h.alike hv
    exact ⟨r', .array hSpaces' h', hr⟩
  | emptyObject h =>
    obtain ⟨u, rfl, hu⟩ := ht.append (w := [_]) (List.forall_mem_singleton.mpr (by decide))
    obtain ⟨r', h', hr⟩ := h.alike_cons hu (by decide)
    exact ⟨r', .emptyObject h', hr⟩
  | object hSpaces h =>
    obtain ⟨u, rfl, hu⟩ := ht.append (w := [_]) (List.forall_mem_singleton.mpr (by decide))
    obtain ⟨v, hSpaces', hv⟩ := hSpaces.alike hu
    obtain ⟨r', h', hr⟩ := h.alike hv
    exact ⟨r', .object hSpaces' h', hr⟩

theorem ElementsAt.alike {t t' r : Text} {js : List Json} (h : ElementsAt t js r) (ht : Alike t t') :
    ∃ r', ElementsAt t' js r' ∧ Alike r r' := by
  cases h with
  | last h hEnd =>
    obtain ⟨u, h', hu⟩ := h.alike ht
    obtain ⟨r', hEnd', hr⟩ := hEnd.alike_cons hu (by decide)
    exact ⟨r', .last h' hEnd', hr⟩
  | more h hComma hRest =>
    obtain ⟨u, h', hu⟩ := h.alike ht
    obtain ⟨v, hComma', hv⟩ := hComma.alike hu (by decide)
    obtain ⟨r', hRest', hr⟩ := hRest.alike hv
    exact ⟨r', .more h' hComma' hRest', hr⟩

theorem MembersAt.alike {t t' r : Text} {ms : List (Text × Json)} (h : MembersAt t ms r)
    (ht : Alike t t') : ∃ r', MembersAt t' ms r' ∧ Alike r r' := by
  cases h with
  | last hKey h hEnd =>
    obtain ⟨u, hKey', hu⟩ := hKey.alike ht
    obtain ⟨v, h', hv⟩ := h.alike hu
    obtain ⟨r', hEnd', hr⟩ := hEnd.alike_cons hv (by decide)
    exact ⟨r', .last hKey' h' hEnd', hr⟩
  | more hKey h hComma hRest =>
    obtain ⟨u, hKey', hu⟩ := hKey.alike ht
    obtain ⟨v, h', hv⟩ := h.alike hu
    obtain ⟨w, hComma', hw⟩ := hComma.alike hv (by decide)
    obtain ⟨r', hRest', hr⟩ := hRest.alike hw
    exact ⟨r', .more hKey' h' hComma' hRest', hr⟩

end

mutual

theorem LongIn.alike {t : Text} : LongIn t → ∀ {t' : Text}, Alike t t' → LongIn t'
  | .here h, _, ht => .here (h.alike ht)
  | .array hSpaces h, _, ht => by
    obtain ⟨u, rfl, hu⟩ := ht.append (w := [_]) (List.forall_mem_singleton.mpr (by decide))
    obtain ⟨v, hSpaces', hv⟩ := hSpaces.alike hu
    exact .array hSpaces' (LongInElements.alike h hv)
  | .object hSpaces h, _, ht => by
    obtain ⟨u, rfl, hu⟩ := ht.append (w := [_]) (List.forall_mem_singleton.mpr (by decide))
    obtain ⟨v, hSpaces', hv⟩ := hSpaces.alike hu
    exact .object hSpaces' (LongInMembers.alike h hv)

theorem LongInElements.alike {t : Text} : LongInElements t → ∀ {t' : Text}, Alike t t' →
    LongInElements t'
  | .first h, _, ht => .first (LongIn.alike h ht)
  | .later hFirst hComma h, _, ht => by
    obtain ⟨u, hFirst', hu⟩ := hFirst.alike ht
    obtain ⟨v, hComma', hv⟩ := hComma.alike hu (by decide)
    exact .later hFirst' hComma' (LongInElements.alike h hv)

theorem LongInMembers.alike {t : Text} : LongInMembers t → ∀ {t' : Text}, Alike t t' →
    LongInMembers t'
  | .first hKey h, _, ht => by
    obtain ⟨u, hKey', hu⟩ := hKey.alike ht
    exact .first hKey' (LongIn.alike h hu)
  | .later hKey hFirst hComma h, _, ht => by
    obtain ⟨u, hKey', hu⟩ := hKey.alike ht
    obtain ⟨v, hFirst', hv⟩ := hFirst.alike hu
    obtain ⟨w, hComma', hw⟩ := hComma.alike hv (by decide)
    exact .later hKey' hFirst' hComma' (LongInMembers.alike h hw)

end

-- ---------------------------------------------------------------------------------------------
-- Texts that are alike
-- ---------------------------------------------------------------------------------------------

theorem IsText.alike {t t' : Text} {j : Json} (h : IsText t j) (ht : Alike t t') : IsText t' j := by
  obtain ⟨u, v, hBefore, hValue, hAfter⟩ := h
  obtain ⟨u', hBefore', hu⟩ := hBefore.alike ht
  obtain ⟨v', hValue', hv⟩ := hValue.alike hu
  obtain ⟨r, hAfter', hr⟩ := hAfter.alike hv
  rw [Text.eq_nil_of_alike hr] at hAfter'
  exact ⟨u', v', hBefore', hValue', hAfter'⟩

theorem MeetsLongInteger.alike {t t' : Text} (h : MeetsLongInteger t) (ht : Alike t t') :
    MeetsLongInteger t' := by
  obtain ⟨u, hSpaces, hLong⟩ := h
  obtain ⟨u', hSpaces', hu⟩ := hSpaces.alike ht
  exact ⟨u', hSpaces', hLong.alike hu⟩

theorem isText_unifyBreaks_iff {t : Text} {j : Json} : IsText (unifyBreaks t) j ↔ IsText t j :=
  ⟨fun h => h.alike (Text.alike_unifyBreaks t).symm, fun h => h.alike (Text.alike_unifyBreaks t)⟩

theorem meetsLongInteger_unifyBreaks_iff {t : Text} :
    MeetsLongInteger (unifyBreaks t) ↔ MeetsLongInteger t :=
  ⟨fun h => h.alike (Text.alike_unifyBreaks t).symm, fun h => h.alike (Text.alike_unifyBreaks t)⟩

end Json

end ClientBoundary
