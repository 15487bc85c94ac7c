import ClientBoundary.Proofs.JsonTokens
import ClientBoundary.Proofs.PatternLocality

/-!
# Reading JSON is exact

A text is read as the value that the grammar has for it, and it is read to the end of that value, or up
to an integer with too many digits.

One direction is by induction on the fuel, as the reader recurs. The other is by recursion on the
derivations of the grammar, and there the fuel has to last: a value takes one unit, and so does each
element or member, so twice the length of a text is enough.

* `key`, `andMore` — what the readers of elements and members have in common.
* `accountsUpTo` — what is read is in the text.
* `ValueAt.gives`, `LongIn.stops` — what is in the text is read.
* `parse_eq_ok_iff`, `parse_eq_tooManyDigits_iff` — both, for whole texts.
-/

namespace ClientBoundary

namespace Json

namespace Reader

-- ---------------------------------------------------------------------------------------------
-- Elements and members
-- ---------------------------------------------------------------------------------------------

/-- Read a key and the colon after it. -/
def key (c : Cursor) : Reading (Text × Cursor) :=
  match c.rest with
  | .char '"' :: _ => do
    let (k, c) ← quotedString c
    let c := skipSpaces c
    match c.rest with
    | .char ':' :: _ => return (k, skipSpaces (c.advance 1))
    | _ => fail .expectingColon c
  | _ => fail .expectingName c

/-- Read what stands after an item of a list: its end, or a comma and the other items. -/
def andMore {α : Type} (close : Char) (a : α) (more : Cursor → Reading (List α × Cursor))
    (c : Cursor) : Reading (List α × Cursor) :=
  let c := skipSpaces c
  match c.rest with
  | .char x :: _ =>
    if x = close then return ([a], c.advance 1)
    else if x = ',' then do
      let (as, c) ← more (skipSpaces (c.advance 1))
      return (a :: as, c)
    else fail .expectingComma c
  | _ => fail .expectingComma c

theorem elements_eq (fuel : Nat) (c : Cursor) : elements (fuel + 1) c =
    value fuel c >>= fun x => andMore ']' x.1 (elements fuel) x.2 := by
  rw [elements]
  cases value fuel c with
  | error e => rfl
  | ok x =>
    simp only [andMore, bind, Except.bind]
    grind

theorem members_eq (fuel : Nat) (c : Cursor) : members (fuel + 1) c =
    key c >>= fun x => value fuel x.2 >>= fun y => andMore '\x7d' (x.1, y.1) (members fuel) y.2 := by
  rw [members]
  split
  · next hText =>
    cases hString : quotedString c with
    | error e =>
      have hKey : key c = .error e := by simp only [key, hText, hString, bind, Except.bind]
      rw [hKey]
      rfl
    | ok x =>
      simp only [bind, Except.bind]
      split
      · next hColon =>
        have hKey : key c = .ok (x.1, skipSpaces ((skipSpaces x.2).advance 1)) := by
          simp only [key, hText, hString, hColon, bind, Except.bind, pure, Except.pure]
        rw [hKey]
        dsimp only
        cases value fuel _ with
        | error e => rfl
        | ok y =>
          simp only [andMore, bind, Except.bind, pure, Except.pure]
          grind
      · next hColon =>
        have hKey : key c = fail .expectingColon (skipSpaces x.2) := by
          simp only [key, hText, hString, bind, Except.bind]
        rw [hKey]
        rfl
  · next hName =>
    have hKey : key c = fail .expectingName c := by
      rw [key]
      split
      · next hText => exact absurd hText (hName _)
      · rfl
    rw [hKey]
    rfl

-- ---------------------------------------------------------------------------------------------
-- What is read is in the text
-- ---------------------------------------------------------------------------------------------

theorem valueAt_word {t w : Text} {j : Json} (h : word? t = some (w, j)) :
    ValueAt t j (t.drop w.length) := by
  have hStarts : t.startsWith w = true :=
    List.find?_some (p := fun x : Text × Json => t.startsWith x.1) h
  have hWord := ValueAt.word (r := t.drop w.length) (List.mem_of_find?_eq_some h)
  rwa [List.prefix_iff_eq_append.mp (Pattern.startsWith_iff.mp hStarts)] at hWord

/-- A character and the spaces after it are passed over. -/
theorem spaces_advance {c : Cursor} {p : CodePoint} {t : Text} (h : c.rest = p :: t) :
    Spaces t (skipSpaces (c.advance 1)).rest := by
  have hRest : (c.advance 1).rest = t := by
    rw [Cursor.advance, h]
    rfl
  have hSpaces := spaces_skipSpaces (c.advance 1)
  rwa [hRest] at hSpaces

/-- A character with the spaces around it is passed over. -/
theorem markAt_skipSpaces {c : Cursor} {x : Char} {t : Text}
    (h : (skipSpaces c).rest = .char x :: t) :
    MarkAt x c.rest (skipSpaces ((skipSpaces c).advance 1)).rest := by
  refine ⟨t, ?_, spaces_advance h⟩
  rw [← h]
  exact spaces_skipSpaces c

/-- The last character of what was read, with the spaces before it. -/
theorem spaces_before {c : Cursor} {x : CodePoint} {t : Text} (h : (skipSpaces c).rest = x :: t) :
    Spaces c.rest (x :: ((skipSpaces c).advance 1).rest) := by
  have hSpaces := spaces_skipSpaces c
  rwa [rest_eq_append (w := [x]) h rfl] at hSpaces

theorem accounts_key (c : Cursor) : Accounts (KeyAt c.rest) False (key c) := by
  rw [key]
  split
  · next hText =>
    refine (accounts_quotedString hText).bind id fun k c' hString => ?_
    dsimp only
    split
    · next hColon => exact ⟨c'.rest, hString, markAt_skipSpaces hColon⟩
    · trivial
  · trivial

theorem accounts_andMore {α : Type} {P : List α → Text → Prop} {L : Prop} {close : Char} {a : α}
    {more : Cursor → Reading (List α × Cursor)} {c : Cursor}
    (hEnd : ∀ r, Spaces c.rest (.char close :: r) → P [a] r)
    (hMore : ∀ c', MarkAt ',' c.rest c'.rest → Accounts (fun as => P (a :: as)) L (more c')) :
    Accounts P L (andMore close a more c) := by
  rw [andMore]
  dsimp only
  split
  · next x _ hText =>
    split
    · next hClose =>
      subst hClose
      exact hEnd _ (spaces_before hText)
    · split
      · next hComma =>
        subst hComma
        exact (hMore _ (markAt_skipSpaces hText)).bind id fun _ _ h => h
      · trivial
  · trivial

/-- What is said of readings with a bound on their depth. -/
structure AccountsUpTo (fuel : Nat) : Prop where
  value : ∀ c, Accounts (ValueAt c.rest) (LongIn c.rest) (value fuel c)
  elements : ∀ c, Accounts (ElementsAt c.rest) (LongInElements c.rest) (elements fuel c)
  members : ∀ c, Accounts (MembersAt c.rest) (LongInMembers c.rest) (members fuel c)

theorem AccountsUpTo.value_succ {fuel : Nat} (ih : AccountsUpTo fuel) (c : Cursor) :
    Accounts (ValueAt c.rest) (LongIn c.rest) (Reader.value (fuel + 1) c) := by
  rw [Reader.value]
  split
  · next hText => exact (accounts_quotedString hText).bind False.elim fun v c' h => .string h
  · next t hText =>
    have hSpaces := spaces_advance hText
    rw [hText]
    dsimp only
    split
    · next hEnd => exact .emptyObject (by rwa [rest_eq_append (w := [_]) hEnd rfl] at hSpaces)
    · exact (ih.members _).bind (.object hSpaces) fun ms c' h => .object hSpaces h
  · next t hText =>
    have hSpaces := spaces_advance hText
    rw [hText]
    dsimp only
    split
    · next hEnd => exact .emptyArray (by rwa [rest_eq_append (w := [_]) hEnd rfl] at hSpaces)
    · exact (ih.elements _).bind (.array hSpaces) fun es c' h => .array hSpaces h
  · split
    · next hWord => exact valueAt_word hWord
    · refine (accounts_number c).imp .here ?_
      rintro j r ⟨w, hNumber, hText, rfl⟩
      rw [hText]
      exact .number hNumber

theorem AccountsUpTo.elements_succ {fuel : Nat} (ih : AccountsUpTo fuel) (c : Cursor) :
    Accounts (ElementsAt c.rest) (LongInElements c.rest) (Reader.elements (fuel + 1) c) := by
  rw [elements_eq]
  refine (ih.value c).bind .first fun j c' hValue => ?_
  refine accounts_andMore (fun r hEnd => .last hValue hEnd) fun c'' hComma => ?_
  exact (ih.elements c'').imp (.later hValue hComma) fun js r h => .more hValue hComma h

theorem AccountsUpTo.members_succ {fuel : Nat} (ih : AccountsUpTo fuel) (c : Cursor) :
    Accounts (MembersAt c.rest) (LongInMembers c.rest) (Reader.members (fuel + 1) c) := by
  rw [members_eq]
  refine (accounts_key c).bind False.elim fun k c₁ hKey => ?_
  refine (ih.value c₁).bind (.first hKey) fun j c₂ hValue => ?_
  refine accounts_andMore (fun r hEnd => .last hKey hValue hEnd) fun c₃ hComma => ?_
  exact (ih.members c₃).imp (.later hKey hValue hComma) fun ms r h => .more hKey hValue hComma h

theorem accountsUpTo (fuel : Nat) : AccountsUpTo fuel := by
  induction fuel with
  | zero => exact ⟨fun _ => trivial, fun _ => trivial, fun _ => trivial⟩
  | succ fuel ih => exact ⟨ih.value_succ, ih.elements_succ, ih.members_succ⟩

-- ---------------------------------------------------------------------------------------------
-- What is in the text is read
-- ---------------------------------------------------------------------------------------------

/-- The code points that a value can begin with. -/
def starts : Text := "\"\x7b[-0123456789ntfNI"

/-- A text begins as values do. -/
def Starts (t : Text) : Prop := ∃ p u, p ∈ starts ∧ t = p :: u

theorem starts_facts {p : CodePoint} (h : p ∈ starts) :
    p ∉ spaces ∧ p ≠ .char ']' ∧ p ≠ .char '\x7d' ∧ p ≠ .char '\ufeff' := by
  have hAll : starts.all (fun p => p ∉ spaces ∧ p ≠ .char ']' ∧ p ≠ .char '\x7d' ∧
      p ≠ .char '\ufeff') = true := by decide
  exact of_decide_eq_true (List.all_eq_true.mp hAll p h)

theorem Starts.noSpace {t : Text} (h : Starts t) : NoSpace t := by
  obtain ⟨p, u, hp, rfl⟩ := h
  intro q hq
  obtain rfl : p = q := Option.some.inj hq
  exact (starts_facts hp).1

theorem starts_of_isDigits {w : Text} (h : IsDigits w) (r : Text) : Starts (w ++ r) := by
  obtain ⟨p, w, rfl⟩ := List.exists_cons_of_ne_nil h.ne_nil
  have hp := h.digits p List.mem_cons_self
  simp only [isAsciiDigit, Bool.and_eq_true, decide_eq_true_eq] at hp
  have hAll : ∀ n < 0x3a, 0x30 ≤ n → point n ∈ starts := by decide
  refine ⟨p, w ++ r, ?_, rfl⟩
  rw [← point_toNat p]
  exact hAll _ (by omega) hp.1

theorem starts_of_sign {sign whole : Text} (hSign : IsSign sign) (hWhole : IsWhole whole) (r : Text) :
    Starts (sign ++ (whole ++ r)) := by
  obtain rfl | rfl := hSign
  · exact starts_of_isDigits (isDigits_of_isWhole hWhole) r
  · exact ⟨.char '-', whole ++ r, by decide, rfl⟩

theorem starts_of_word {w : Text} {j : Json} (h : (w, j) ∈ words) (r : Text) : Starts (w ++ r) := by
  have hAll : (words.map Prod.fst).all (fun w => w.head?.any (starts.contains ·)) = true := by decide
  have hHead := List.all_eq_true.mp hAll w (List.mem_map_of_mem h)
  cases w with
  | nil => cases hHead
  | cons p w => exact ⟨p, w ++ r, by simpa using hHead, rfl⟩

theorem starts_of_valueAt {t r : Text} {j : Json} (h : ValueAt t j r) : Starts t := by
  cases h with
  | string h =>
    obtain ⟨w, -, rfl⟩ := h
    exact ⟨_, _, by decide, rfl⟩
  | word h => exact starts_of_word h r
  | number h =>
    obtain ⟨sign, whole, fraction, exponent, hSign, hWhole, -, -, rfl⟩ := h
    rw [List.append_assoc, List.append_assoc]
    exact starts_of_sign hSign hWhole _
  | emptyArray _ => exact ⟨_, _, by decide, rfl⟩
  | array _ _ => exact ⟨_, _, by decide, rfl⟩
  | emptyObject _ => exact ⟨_, _, by decide, rfl⟩
  | object _ _ => exact ⟨_, _, by decide, rfl⟩

theorem starts_of_keyAt {t k r : Text} (h : KeyAt t k r) : Starts t := by
  obtain ⟨u, ⟨w, -, rfl⟩, -⟩ := h
  exact ⟨_, _, by decide, rfl⟩

theorem starts_of_elementsAt {t r : Text} {js : List Json} (h : ElementsAt t js r) : Starts t := by
  cases h with
  | last h _ => exact starts_of_valueAt h
  | more h _ _ => exact starts_of_valueAt h

theorem starts_of_membersAt {t r : Text} {ms : List (Text × Json)} (h : MembersAt t ms r) :
    Starts t := by
  cases h with
  | last hKey _ _ => exact starts_of_keyAt hKey
  | more hKey _ _ _ => exact starts_of_keyAt hKey

theorem starts_of_longIntegerAt {t : Text} (h : LongIntegerAt t) : Starts t := by
  obtain ⟨sign, whole, rest, hSign, hWhole, -, -, rfl⟩ := h
  exact starts_of_sign hSign hWhole rest

/-- There is fuel to begin with. -/
theorem Starts.exists_fuel {t : Text} (h : Starts t) {fuel : Nat} (hFuel : 2 * t.length ≤ fuel + 1) :
    ∃ n, fuel = n + 1 := by
  obtain ⟨p, u, -, rfl⟩ := h
  rw [List.length_cons] at hFuel
  exact ⟨fuel - 1, by omega⟩

-- The kinds of values are told apart by what they begin with.

theorem value_string {t v r : Text} (h : StringAt t v r) (fuel o : Nat) :
    value (fuel + 1) ⟨o, t⟩ = quotedString ⟨o, t⟩ >>= fun x => pure (.string x.1, x.2) := by
  obtain ⟨w, -, rfl⟩ := h
  rfl

theorem value_word {w : Text} {j : Json} (h : (w, j) ∈ words) (r : Text) (fuel o : Nat) :
    value (fuel + 1) ⟨o, w ++ r⟩ = .ok (j, ⟨o + w.length, r⟩) := by
  simp only [words, List.mem_cons, List.not_mem_nil, or_false, Prod.mk.injEq] at h
  obtain h | h | h | h | h | h := h
  all_goals
    obtain ⟨rfl, rfl⟩ := h
    rfl

/-- What a number begins with: a digit, or a minus sign and a digit. -/
theorem exists_signed_digit {sign whole : Text} (hSign : IsSign sign) (hWhole : IsWhole whole)
    (r : Text) : ∃ d u, isAsciiDigit d = true ∧
      (sign ++ (whole ++ r) = d :: u ∨ sign ++ (whole ++ r) = .char '-' :: d :: u) := by
  have hDigits := isDigits_of_isWhole hWhole
  obtain ⟨d, w, rfl⟩ := List.exists_cons_of_ne_nil hDigits.ne_nil
  have hd := hDigits.digits d List.mem_cons_self
  obtain rfl | rfl := hSign
  · exact ⟨d, w ++ r, hd, .inl rfl⟩
  · exact ⟨d, w ++ r, hd, .inr rfl⟩

/-- None of the words begins as a number does. -/
theorem word?_eq_none {sign whole : Text} (hSign : IsSign sign) (hWhole : IsWhole whole) (r : Text) :
    word? (sign ++ (whole ++ r)) = none := by
  have hWords : (words.map Prod.fst).all
      (fun w => 2 ≤ w.length ∧ ∀ p ∈ w.take 2, isAsciiDigit p = false) = true := by decide
  obtain ⟨d, u, hd, hText⟩ := exists_signed_digit hSign hWhole r
  rw [word?, List.find?_eq_none]
  intro x hx hStarts
  obtain ⟨hLength, hNone⟩ :=
    of_decide_eq_true (List.all_eq_true.mp hWords x.1 (List.mem_map_of_mem hx))
  have hTake : x.1.take 2 = (sign ++ (whole ++ r)).take 2 := by
    rw [List.prefix_iff_eq_take.mp (Pattern.startsWith_iff.mp hStarts), List.take_take,
      Nat.min_eq_left hLength]
  have hMem : d ∈ x.1.take 2 := by
    rw [hTake]
    obtain hText | hText := hText <;> simp [hText]
  rw [hNone d hMem] at hd
  cases hd

theorem value_number {sign whole : Text} (hSign : IsSign sign) (hWhole : IsWhole whole) (r : Text)
    (fuel o : Nat) :
    value (fuel + 1) ⟨o, sign ++ (whole ++ r)⟩ = number ⟨o, sign ++ (whole ++ r)⟩ := by
  have hWord := word?_eq_none hSign hWhole r
  obtain ⟨d, u, hd, hText⟩ := exists_signed_digit hSign hWhole r
  generalize sign ++ (whole ++ r) = t at hWord hText
  have hHead {p : CodePoint} {t' : Text} (ht : t = p :: t') :
      p = .char '-' ∨ isAsciiDigit p = true := by
    obtain rfl | rfl := hText
    · cases ht
      exact .inr hd
    · cases ht
      exact .inl rfl
  rw [value]
  split
  · next h => exact absurd (hHead h) (by decide)
  · next h => exact absurd (hHead h) (by decide)
  · next h => exact absurd (hHead h) (by decide)
  · simp only [hWord]

theorem value_emptyArray {t r : Text} (h : Spaces t (.char ']' :: r)) (fuel o : Nat) :
    ∃ o', value (fuel + 1) ⟨o, .char '[' :: t⟩ = .ok (.array [], ⟨o', r⟩) := by
  obtain ⟨o', hSkip⟩ := skipSpaces_eq h (fun p hp => by cases hp; decide) (o + 1)
  refine ⟨o' + 1, ?_⟩
  rw [value]
  simp only [Cursor.advance, List.drop_succ_cons, List.drop_zero, hSkip]

theorem value_array {t u : Text} (hSpaces : Spaces t u) (hStarts : Starts u) (fuel o : Nat) :
    ∃ o', value (fuel + 1) ⟨o, .char '[' :: t⟩ =
      elements fuel ⟨o', u⟩ >>= fun x => pure (.array x.1, x.2) := by
  obtain ⟨o', hSkip⟩ := skipSpaces_eq hSpaces hStarts.noSpace (o + 1)
  obtain ⟨p, u, hp, rfl⟩ := hStarts
  refine ⟨o', ?_⟩
  rw [value]
  simp only [Cursor.advance, List.drop_succ_cons, List.drop_zero, hSkip]
  split
  · next h => exact absurd (List.cons.inj h).1 (starts_facts hp).2.1
  · rfl

theorem value_emptyObject {t r : Text} (h : Spaces t (.char '\x7d' :: r)) (fuel o : Nat) :
    ∃ o', value (fuel + 1) ⟨o, .char '\x7b' :: t⟩ = .ok (.object [], ⟨o', r⟩) := by
  obtain ⟨o', hSkip⟩ := skipSpaces_eq h (fun p hp => by cases hp; decide) (o + 1)
  refine ⟨o' + 1, ?_⟩
  rw [value]
  simp only [Cursor.advance, List.drop_succ_cons, List.drop_zero, hSkip]

theorem value_object {t u : Text} (hSpaces : Spaces t u) (hStarts : Starts u) (fuel o : Nat) :
    ∃ o', value (fuel + 1) ⟨o, .char '\x7b' :: t⟩ =
      members fuel ⟨o', u⟩ >>= fun x => pure (.object x.1, x.2) := by
  obtain ⟨o', hSkip⟩ := skipSpaces_eq hSpaces hStarts.noSpace (o + 1)
  obtain ⟨p, u, hp, rfl⟩ := hStarts
  refine ⟨o', ?_⟩
  rw [value]
  simp only [Cursor.advance, List.drop_succ_cons, List.drop_zero, hSkip]
  split
  · next h => exact absurd (List.cons.inj h).1 (starts_facts hp).2.2.1
  · rfl

theorem notMem_spaces {x : Char} (h : .char x ∉ spaces) (t : Text) : NoSpace (.char x :: t) := by
  intro p hp
  rwa [← Option.some.inj hp]

theorem gives_key {t k u : Text} (h : KeyAt t k u) (hu : NoSpace u) (o : Nat) :
    Gives k u (key ⟨o, t⟩) := by
  obtain ⟨r, hString, v, hBefore, hAfter⟩ := h
  have hRead := gives_quotedString hString o
  obtain ⟨w, -, rfl⟩ := hString
  rw [key]
  dsimp only
  refine hRead.bind fun o₁ => ?_
  obtain ⟨o₂, hSkip⟩ := skipSpaces_eq hBefore (notMem_spaces (by decide) v) o₁
  obtain ⟨o₃, hSkip'⟩ := skipSpaces_eq hAfter hu (o₂ + 1)
  simp only [hSkip, Cursor.advance, List.drop_succ_cons, List.drop_zero, hSkip']
  exact .inr ⟨o₃, rfl⟩

section

variable {α : Type} {close : Char} {t r : Text}

theorem gives_andMore_end (h : Spaces t (.char close :: r)) (hClose : .char close ∉ spaces) (a : α)
    (more : Cursor → Reading (List α × Cursor)) (o : Nat) :
    Gives [a] r (andMore close a more ⟨o, t⟩) := by
  obtain ⟨o', hSkip⟩ := skipSpaces_eq h (notMem_spaces hClose r) o
  simp only [andMore, hSkip, if_true]
  exact .inr ⟨o' + 1, rfl⟩

theorem andMore_comma (h : MarkAt ',' t r) (hr : NoSpace r) (hClose : ',' ≠ close) (a : α)
    (more : Cursor → Reading (List α × Cursor)) (o : Nat) :
    ∃ o', andMore close a more ⟨o, t⟩ = more ⟨o', r⟩ >>= fun x => pure (a :: x.1, x.2) := by
  obtain ⟨u, hBefore, hAfter⟩ := h
  obtain ⟨o₁, hSkip⟩ := skipSpaces_eq hBefore (notMem_spaces (by decide) u) o
  obtain ⟨o₂, hSkip'⟩ := skipSpaces_eq hAfter hr (o₁ + 1)
  refine ⟨o₂, ?_⟩
  simp only [andMore, hSkip, if_neg hClose, if_true, Cursor.advance, List.drop_succ_cons,
    List.drop_zero, hSkip']

end

theorem ends_of_spaces {t r : Text} (h : Spaces t r) (hr : Ends r) : Ends t := by
  obtain ⟨s, hs, rfl⟩ := h
  cases s with
  | nil => exact hr
  | cons p s =>
    intro q hq
    obtain rfl : p = q := Option.some.inj hq
    exact List.mem_append_left _ (hs p List.mem_cons_self)

theorem ends_cons {x : Char} (h : .char x ∈ spaces ++ (",]\x7d" : Text)) (t : Text) :
    Ends (.char x :: t) := by
  intro p hp
  rwa [← Option.some.inj hp]

theorem ends_of_markAt {t r : Text} (h : MarkAt ',' t r) : Ends t := by
  obtain ⟨u, hBefore, -⟩ := h
  exact ends_of_spaces hBefore (ends_cons (by decide) u)

end Reader

theorem Spaces.length_le {t r : Text} (h : Spaces t r) : r.length ≤ t.length := by
  obtain ⟨s, -, rfl⟩ := h
  simp

theorem MarkAt.length_lt {c : Char} {t r : Text} (h : MarkAt c t r) : r.length < t.length := by
  obtain ⟨u, hBefore, hAfter⟩ := h
  have hBefore := hBefore.length_le
  have hAfter := hAfter.length_le
  rw [List.length_cons] at hBefore
  omega

theorem StringAt.length_le {t v r : Text} (h : StringAt t v r) : r.length ≤ t.length := by
  obtain ⟨w, -, rfl⟩ := h
  simp
  omega

theorem KeyAt.length_le {t k r : Text} (h : KeyAt t k r) : r.length ≤ t.length := by
  obtain ⟨u, hString, hColon⟩ := h
  exact hColon.length_lt.le.trans hString.length_le

mutual

theorem ValueAt.length_le {t r : Text} {j : Json} (h : ValueAt t j r) : r.length ≤ t.length := by
  cases h with
  | string h => exact h.length_le
  | word _ => simp
  | number _ => simp
  | emptyArray h => exact Nat.le_succ_of_le ((Nat.le_succ _).trans h.length_le)
  | array hSpaces h => exact Nat.le_succ_of_le (h.length_le.trans hSpaces.length_le)
  | emptyObject h => exact Nat.le_succ_of_le ((Nat.le_succ _).trans h.length_le)
  | object hSpaces h => exact Nat.le_succ_of_le (h.length_le.trans hSpaces.length_le)

theorem ElementsAt.length_le {t r : Text} {js : List Json} (h : ElementsAt t js r) :
    r.length ≤ t.length := by
  cases h with
  | last h hEnd => exact ((Nat.le_succ _).trans hEnd.length_le).trans h.length_le
  | more h hComma hRest => exact (hRest.length_le.trans hComma.length_lt.le).trans h.length_le

theorem MembersAt.length_le {t r : Text} {ms : List (Text × Json)} (h : MembersAt t ms r) :
    r.length ≤ t.length := by
  cases h with
  | last hKey h hEnd =>
    exact (((Nat.le_succ _).trans hEnd.length_le).trans h.length_le).trans hKey.length_le
  | more hKey h hComma hRest =>
    exact ((hRest.length_le.trans hComma.length_lt.le).trans h.length_le).trans hKey.length_le

end

open Json.Reader

mutual

/-- A value is read, given two units of fuel for each code point. -/
theorem ValueAt.gives {t r : Text} {j : Json} (h : ValueAt t j r) (hEnds : Ends r) (fuel o : Nat)
    (hFuel : 2 * t.length ≤ fuel + 1) : Gives j r (value fuel ⟨o, t⟩) := by
  obtain ⟨fuel, rfl⟩ := (starts_of_valueAt h).exists_fuel hFuel
  cases h with
  | string h =>
    rw [value_string h]
    exact (gives_quotedString h o).bind fun o' => .inr ⟨o', rfl⟩
  | word h =>
    rw [value_word h]
    exact .inr ⟨_, rfl⟩
  | number h =>
    have hNumber := gives_number h hEnds o
    obtain ⟨sign, whole, fraction, exponent, hSign, hWhole, -, -, rfl⟩ := h
    rw [List.append_assoc, List.append_assoc] at hNumber ⊢
    rwa [value_number hSign hWhole]
  | emptyArray h => exact .inr ((value_emptyArray h fuel o).imp fun _ => id)
  | array hSpaces h =>
    obtain ⟨o', hValue⟩ := value_array hSpaces (starts_of_elementsAt h) fuel o
    rw [hValue]
    have hLength := hSpaces.length_le
    rw [List.length_cons] at hFuel
    exact (h.gives fuel o' (by omega)).bind fun o' => .inr ⟨o', rfl⟩
  | emptyObject h => exact .inr ((value_emptyObject h fuel o).imp fun _ => id)
  | object hSpaces h =>
    obtain ⟨o', hValue⟩ := value_object hSpaces (starts_of_membersAt h) fuel o
    rw [hValue]
    have hLength := hSpaces.length_le
    rw [List.length_cons] at hFuel
    exact (h.gives fuel o' (by omega)).bind fun o' => .inr ⟨o', rfl⟩

theorem ElementsAt.gives {t r : Text} {js : List Json} (h : ElementsAt t js r) (fuel o : Nat)
    (hFuel : 2 * t.length ≤ fuel) : Gives js r (elements fuel ⟨o, t⟩) := by
  obtain ⟨fuel, rfl⟩ := (starts_of_elementsAt h).exists_fuel (Nat.le_succ_of_le hFuel)
  rw [elements_eq]
  cases h with
  | last h hEnd =>
    refine (h.gives (ends_of_spaces hEnd (ends_cons (by decide) _)) fuel o hFuel).bind fun o₁ => ?_
    exact gives_andMore_end hEnd (by decide) _ _ o₁
  | more h hComma hRest =>
    have hLength := h.length_le
    have hLength' := hComma.length_lt
    refine (h.gives (ends_of_markAt hComma) fuel o hFuel).bind fun o₁ => ?_
    obtain ⟨o₂, hMore⟩ := andMore_comma hComma (starts_of_elementsAt hRest).noSpace
      (by decide : ',' ≠ ']') _ (elements fuel) o₁
    rw [hMore]
    exact (hRest.gives fuel o₂ (by omega)).bind fun o' => .inr ⟨o', rfl⟩

theorem MembersAt.gives {t r : Text} {ms : List (Text × Json)} (h : MembersAt t ms r)
    (fuel o : Nat) (hFuel : 2 * t.length ≤ fuel) : Gives ms r (members fuel ⟨o, t⟩) := by
  obtain ⟨fuel, rfl⟩ := (starts_of_membersAt h).exists_fuel (Nat.le_succ_of_le hFuel)
  rw [members_eq]
  cases h with
  | last hKey h hEnd =>
    have hLength := hKey.length_le
    refine (gives_key hKey (starts_of_valueAt h).noSpace o).bind fun o₁ => ?_
    refine (h.gives (ends_of_spaces hEnd (ends_cons (by decide) _)) fuel o₁ (by omega)).bind
      fun o₂ => ?_
    exact gives_andMore_end hEnd (by decide) _ _ o₂
  | more hKey h hComma hRest =>
    have hLength := hKey.length_le
    have hLength' := h.length_le
    have hLength'' := hComma.length_lt
    refine (gives_key hKey (starts_of_valueAt h).noSpace o).bind fun o₁ => ?_
    refine (h.gives (ends_of_markAt hComma) fuel o₁ (by omega)).bind fun o₂ => ?_
    obtain ⟨o₃, hMore⟩ := andMore_comma hComma (starts_of_membersAt hRest).noSpace
      (by decide : ',' ≠ '\x7d') _ (members fuel) o₂
    rw [hMore]
    exact (hRest.gives fuel o₃ (by omega)).bind fun o' => .inr ⟨o', rfl⟩

end

mutual

theorem LongIn.starts {t : Text} (h : LongIn t) : Starts t := by
  cases h with
  | here h => exact starts_of_longIntegerAt h
  | array _ _ => exact ⟨_, _, by decide, rfl⟩
  | object _ _ => exact ⟨_, _, by decide, rfl⟩

theorem LongInElements.starts {t : Text} (h : LongInElements t) : Starts t := by
  cases h with
  | first h => exact h.starts
  | later h _ _ => exact starts_of_valueAt h

theorem LongInMembers.starts {t : Text} (h : LongInMembers t) : Starts t := by
  cases h with
  | first hKey _ => exact starts_of_keyAt hKey
  | later hKey _ _ _ => exact starts_of_keyAt hKey

end

mutual

/-- An integer with too many digits ends the reading, given the fuel to get there. -/
theorem LongIn.stops {t : Text} (h : LongIn t) (fuel o : Nat) (hFuel : 2 * t.length ≤ fuel + 1) :
    value fuel ⟨o, t⟩ = .error .tooManyDigits := by
  obtain ⟨fuel, rfl⟩ := h.starts.exists_fuel hFuel
  cases h with
  | here h =>
    have hNumber := number_long h o
    obtain ⟨sign, whole, rest, hSign, hWhole, -, -, rfl⟩ := h
    rwa [value_number hSign hWhole]
  | array hSpaces h =>
    obtain ⟨o', hValue⟩ := value_array hSpaces h.starts fuel o
    have hLength := hSpaces.length_le
    rw [List.length_cons] at hFuel
    rw [hValue, h.stops fuel o' (by omega)]
    rfl
  | object hSpaces h =>
    obtain ⟨o', hValue⟩ := value_object hSpaces h.starts fuel o
    have hLength := hSpaces.length_le
    rw [List.length_cons] at hFuel
    rw [hValue, h.stops fuel o' (by omega)]
    rfl

theorem LongInElements.stops {t : Text} (h : LongInElements t) (fuel o : Nat)
    (hFuel : 2 * t.length ≤ fuel) : elements fuel ⟨o, t⟩ = .error .tooManyDigits := by
  obtain ⟨fuel, rfl⟩ := h.starts.exists_fuel (Nat.le_succ_of_le hFuel)
  rw [elements_eq]
  cases h with
  | first h =>
    rw [h.stops fuel o hFuel]
    rfl
  | later h hComma hRest =>
    have hLength := h.length_le
    have hLength' := hComma.length_lt
    refine (h.gives (ends_of_markAt hComma) fuel o hFuel).bind_long fun o₁ => ?_
    obtain ⟨o₂, hMore⟩ := andMore_comma hComma hRest.starts.noSpace (by decide : ',' ≠ ']') _
      (elements fuel) o₁
    rw [hMore, hRest.stops fuel o₂ (by omega)]
    rfl

theorem LongInMembers.stops {t : Text} (h : LongInMembers t) (fuel o : Nat)
    (hFuel : 2 * t.length ≤ fuel) : members fuel ⟨o, t⟩ = .error .tooManyDigits := by
  obtain ⟨fuel, rfl⟩ := h.starts.exists_fuel (Nat.le_succ_of_le hFuel)
  rw [members_eq]
  cases h with
  | first hKey h =>
    have hLength := hKey.length_le
    refine (gives_key hKey h.starts.noSpace o).bind_long fun o₁ => ?_
    rw [h.stops fuel o₁ (by omega)]
    rfl
  | later hKey h hComma hRest =>
    have hLength := hKey.length_le
    have hLength' := h.length_le
    have hLength'' := hComma.length_lt
    refine (gives_key hKey (starts_of_valueAt h).noSpace o).bind_long fun o₁ => ?_
    refine (h.gives (ends_of_markAt hComma) fuel o₁ (by omega)).bind_long fun o₂ => ?_
    obtain ⟨o₃, hMore⟩ := andMore_comma hComma hRest.starts.noSpace (by decide : ',' ≠ '\x7d') _
      (members fuel) o₂
    rw [hMore, hRest.stops fuel o₃ (by omega)]
    rfl

end

-- ---------------------------------------------------------------------------------------------
-- Texts
-- ---------------------------------------------------------------------------------------------

theorem parse_sound (s : Text) : (∀ j, parse s = .ok j → IsText s j) ∧
    (parse s = .error .tooManyDigits → MeetsLongInteger s) := by
  have hSpaces := spaces_skipSpaces ⟨0, s⟩
  have hValue := (accountsUpTo (2 * s.length + 2)).value (skipSpaces ⟨0, s⟩)
  rw [parse]
  split
  · exact ⟨nofun, nofun⟩
  · revert hValue
    generalize value (2 * s.length + 2) (skipSpaces ⟨0, s⟩) = x
    intro hValue
    match x with
    | .error .tooManyDigits => exact ⟨nofun, fun _ => ⟨_, hSpaces, hValue⟩⟩
    | .error (.malformed _ _) => exact ⟨nofun, nofun⟩
    | .ok (j, c) =>
      have hRest := spaces_skipSpaces c
      simp only [bind, Except.bind, pure, Except.pure]
      split
      · next hEmpty =>
        rw [List.isEmpty_iff.mp hEmpty] at hRest
        refine ⟨fun j' h => ?_, nofun⟩
        obtain rfl : j = j' := Except.ok.inj h
        exact ⟨_, _, hSpaces, hValue, hRest⟩
      · exact ⟨nofun, nofun⟩

/-- What begins as values do is read from there. -/
theorem parse_eq {s u : Text} (hSpaces : Spaces s u) (hu : Starts u) : ∃ o, parse s =
    value (2 * s.length + 2) ⟨o, u⟩ >>= fun x =>
      if (skipSpaces x.2).rest.isEmpty then pure x.1
      else .error (.malformed .extraData (skipSpaces x.2).offset) := by
  obtain ⟨o, hSkip⟩ := skipSpaces_eq hSpaces hu.noSpace 0
  have hMark : s.head? ≠ some (.char '\ufeff') := by
    obtain ⟨_ | ⟨p, w⟩, hw, rfl⟩ := hSpaces
    · obtain ⟨p, u, hp, rfl⟩ := hu
      exact fun h => (starts_facts hp).2.2.2 (Option.some.inj h)
    · intro h
      have hp := hw p List.mem_cons_self
      rw [Option.some.inj h] at hp
      exact absurd hp (by decide)
  refine ⟨o, ?_⟩
  rw [parse, if_neg hMark, hSkip]

theorem parse_of_meetsLongInteger {s : Text} (h : MeetsLongInteger s) :
    parse s = .error .tooManyDigits := by
  obtain ⟨u, hSpaces, hLong⟩ := h
  obtain ⟨o, hParse⟩ := parse_eq hSpaces hLong.starts
  have hLength := hSpaces.length_le
  rw [hParse, hLong.stops _ o (by omega)]
  rfl

theorem parse_of_isText {s : Text} {j : Json} (h : IsText s j) :
    parse s = .error .tooManyDigits ∨ parse s = .ok j := by
  obtain ⟨u, v, hSpaces, hValue, hRest⟩ := h
  obtain ⟨o, hParse⟩ := parse_eq hSpaces (starts_of_valueAt hValue)
  have hLength := hSpaces.length_le
  have hEnds : Ends v := ends_of_spaces hRest fun _ hp => nomatch hp
  rw [hParse]
  obtain hRead | ⟨o₁, hRead⟩ := hValue.gives hEnds (2 * s.length + 2) o (by omega)
  · rw [hRead]
    exact .inl rfl
  · obtain ⟨o₂, hSkip⟩ := skipSpaces_eq hRest (fun _ hp => nomatch hp) o₁
    rw [hRead]
    right
    simp only [bind, Except.bind, hSkip]
    rfl

/-- Reading meets an integer with too many digits exactly where the text does. -/
theorem parse_eq_tooManyDigits_iff {s : Text} :
    parse s = .error .tooManyDigits ↔ MeetsLongInteger s :=
  ⟨(parse_sound s).2, parse_of_meetsLongInteger⟩

/-- Reading gives the values of the text, where it meets no such integer. -/
theorem parse_eq_ok_iff {s : Text} {j : Json} :
    parse s = .ok j ↔ IsText s j ∧ ¬ MeetsLongInteger s := by
  rw [← parse_eq_tooManyDigits_iff]
  constructor
  · intro h
    refine ⟨(parse_sound s).1 j h, ?_⟩
    rw [h]
    exact nofun
  · rintro ⟨hText, hLong⟩
    exact (parse_of_isText hText).resolve_left hLong

end Json

end ClientBoundary
