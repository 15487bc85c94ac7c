import Mathlib.Data.List.Induction
import ClientBoundary.Grammar.Basic

/-!
# Clauses

A grammar is mostly written with options and repetitions, while the rules that are run write them
out: a repeated part is a category of its own that goes on at its end, an option is one alternative
with the part and one without, and small rules are put where they are used. A `Clause` is the right
side of a rule as it is written, and `Clause.Derives` says what it stands for.

* `Lowering` — what each category of a grammar stands for among the clauses. Writing the clauses out
  (`Lowering.expand`) has to give the alternatives of the grammar, which is a matter of computation
  (`Lowering.Faithful`).
* `Lowering.means_of_tree`, `Lowering.reached_of_derives` — then the written rules and the grammar
  derive the same sequences of terminals.
-/

namespace ClientBoundary.Grammar

variable {M N : Type} {V : N → Type}

/-- The right side of a rule as it is written, over rules with names in `M`. -/
inductive Clause (M : Type) where
  | tok (t : Terminal)
  | rule (m : M)
  | seq (a b : Clause M)
  | alt (a b : Clause M)
  /-- At most once. -/
  | opt (a : Clause M)
  /-- Any number of times. -/
  | many (a : Clause M)
  /-- Once or more, with commas between. -/
  | commas (a : Clause M)
deriving DecidableEq, Repr

namespace Clause

instance : Append (Clause M) := ⟨seq⟩

instance : OrElse (Clause M) := ⟨fun a b => alt a (b ())⟩

/-- What a clause stands for, under the given rules. -/
inductive Derives (rules : M → Clause M) : Clause M → List Terminal → Prop where
  | tok (t : Terminal) : Derives rules (.tok t) [t]
  | rule {m : M} {w : List Terminal} (h : Derives rules (rules m) w) : Derives rules (.rule m) w
  | seq {a b : Clause M} {u v : List Terminal} (ha : Derives rules a u) (hb : Derives rules b v) :
      Derives rules (.seq a b) (u ++ v)
  | left {a b : Clause M} {w : List Terminal} (h : Derives rules a w) : Derives rules (.alt a b) w
  | right {a b : Clause M} {w : List Terminal} (h : Derives rules b w) : Derives rules (.alt a b) w
  | skip (a : Clause M) : Derives rules (.opt a) []
  | once {a : Clause M} {w : List Terminal} (h : Derives rules a w) : Derives rules (.opt a) w
  | many {a : Clause M} (ws : List (List Terminal)) (h : ∀ w ∈ ws, Derives rules a w) :
      Derives rules (.many a) ws.flatten
  | commas {a : Clause M} {u : List Terminal} (ws : List (List Terminal)) (hu : Derives rules a u)
      (h : ∀ w ∈ ws, Derives rules a w) : Derives rules (.commas a) (u ++ ws.flatMap (.comma :: ·))

end Clause

-- ---------------------------------------------------------------------------------------------
-- Sequences of symbols
-- ---------------------------------------------------------------------------------------------

/-- A sequence of terminals is derivable from symbols side by side. -/
def DerivesAll (G : Grammar V) (ss : List (Symbol N)) (w : List Terminal) : Prop :=
  ∃ f : Forest G ss, f.yield.map Token.kind = w

section Sequences

variable {G : Grammar V}

@[simp] theorem derives_tok {t : Terminal} {w : List Terminal} : Derives G (.tok t) w ↔ w = [t] := by
  constructor
  · rintro ⟨tree, rfl⟩
    cases tree with
    | leaf _ token h => rw [Tree.yield, List.map_singleton, h]
  · rintro rfl
    exact ⟨.leaf t { (default : Token) with kind := t } rfl, rfl⟩

theorem derives_cat {n : N} {w : List Terminal} :
    Derives G (.cat n) w ↔ ∃ ss ∈ G.shape n, DerivesAll G ss w := by
  constructor
  · rintro ⟨tree, rfl⟩
    cases tree with
    | node n i children =>
      exact ⟨_, List.mem_map_of_mem (List.get_mem _ i), children, by rw [Tree.yield]⟩
  · rintro ⟨ss, hMem, f, rfl⟩
    obtain ⟨a, ha, rfl⟩ := List.mem_map.mp hMem
    obtain ⟨i, rfl⟩ := List.get_of_mem ha
    exact ⟨.node n i f, by rw [Tree.yield]⟩

@[simp] theorem derivesAll_nil {w : List Terminal} : DerivesAll G [] w ↔ w = [] := by
  constructor
  · rintro ⟨f, rfl⟩
    cases f
    rfl
  · rintro rfl
    exact ⟨.nil, rfl⟩

theorem derivesAll_cons {s : Symbol N} {ss : List (Symbol N)} {w : List Terminal} :
    DerivesAll G (s :: ss) w ↔ ∃ u v, w = u ++ v ∧ Derives G s u ∧ DerivesAll G ss v := by
  constructor
  · rintro ⟨f, rfl⟩
    cases f with
    | cons _ _ tree rest =>
      exact ⟨_, _, by rw [Forest.yield, List.map_append], ⟨tree, rfl⟩, rest, rfl⟩
  · rintro ⟨u, v, rfl, ⟨tree, rfl⟩, rest, rfl⟩
    exact ⟨.cons s ss tree rest, by rw [Forest.yield, List.map_append]⟩

theorem derivesAll_single {s : Symbol N} {w : List Terminal} :
    DerivesAll G [s] w ↔ Derives G s w := by
  rw [derivesAll_cons]
  constructor
  · rintro ⟨u, v, rfl, hu, hv⟩
    rwa [derivesAll_nil.mp hv, List.append_nil]
  · intro h
    exact ⟨w, [], (List.append_nil w).symm, h, derivesAll_nil.mpr rfl⟩

theorem DerivesAll.append {xs ys : List (Symbol N)} {u v : List Terminal} (hx : DerivesAll G xs u)
    (hy : DerivesAll G ys v) : DerivesAll G (xs ++ ys) (u ++ v) := by
  induction xs generalizing u with
  | nil =>
    rw [derivesAll_nil.mp hx]
    exact hy
  | cons s xs ih =>
    obtain ⟨u, u', rfl, hFirst, hRest⟩ := derivesAll_cons.mp hx
    rw [List.append_assoc]
    exact derivesAll_cons.mpr ⟨u, u' ++ v, rfl, hFirst, ih hRest⟩

end Sequences

-- ---------------------------------------------------------------------------------------------
-- Writing clauses out
-- ---------------------------------------------------------------------------------------------

/-- What a category of a grammar stands for among the written rules. -/
inductive Role (M : Type) where
  /-- One of the rules. -/
  | rule (m : M)
  /-- A part that is repeated, once at least. -/
  | list (a : Clause M)
  /-- A part that is repeated with commas between, once at least. -/
  | commas (a : Clause M)
deriving DecidableEq

/-- The clause that a role stands for. -/
def Role.clause : Role M → Clause M
  | .rule m => .rule m
  | .list a => .seq a (.many a)
  | .commas a => .commas a

/-- Written rules and the roles that the categories of a grammar have among them. `depth` bounds how
often rules without a category are put into each other. -/
structure Lowering (M N : Type) where
  rules : M → Clause M
  categories : List N
  role : N → Role M
  depth : Nat

namespace Lowering

section Expansion

variable [DecidableEq M]

/-- The category with a role, if there is one. -/
def category? (L : Lowering M N) (r : Role M) : Option N := L.categories.find? (L.role · = r)

/-- The alternatives of a clause written out; `inner` are those of a rule without a category. -/
def expandWith (L : Lowering M N) (inner : M → List (List (Symbol N))) :
    Clause M → List (List (Symbol N))
  | .tok t => [[.tok t]]
  | .rule m => match L.category? (.rule m) with
    | some n => [[.cat n]]
    | none => inner m
  | .seq a b => (L.expandWith inner a).flatMap fun x => (L.expandWith inner b).map (x ++ ·)
  | .alt a b => L.expandWith inner a ++ L.expandWith inner b
  | .opt a => L.expandWith inner a ++ [[]]
  | .many a => match L.category? (.list a) with
    | some n => [[.cat n], []]
    | none => []
  | .commas a => match L.category? (.commas a) with
    | some n => [[.cat n]]
    | none => []

/-- The alternatives of a clause, where rules without a category are put in at most `k` times. -/
def expandTo (L : Lowering M N) : (k : Nat) → Clause M → List (List (Symbol N))
  | 0 => L.expandWith fun _ => []
  | k + 1 => L.expandWith fun m => L.expandTo k (L.rules m)

/-- The alternatives of a clause. -/
def expand (L : Lowering M N) : Clause M → List (List (Symbol N)) := L.expandTo (L.depth + 1)

/-- The alternatives of a category from its role. A list goes on at its end. -/
def alternatives (L : Lowering M N) (n : N) : List (List (Symbol N)) :=
  match L.role n with
  | .rule m => L.expand (L.rules m)
  | .list a => (L.expand a).map (.cat n :: ·) ++ L.expand a
  | .commas a => (L.expand a).map (fun x => .cat n :: .tok .comma :: x) ++ L.expand a

/-- Every repeated part has a category. -/
def listed (L : Lowering M N) : Clause M → Bool
  | .tok _ | .rule _ => true
  | .seq a b | .alt a b => L.listed a && L.listed b
  | .opt a => L.listed a
  | .many a => (L.category? (.list a)).isSome && L.listed a
  | .commas a => (L.category? (.commas a)).isSome && L.listed a

/-- The grammar is what the written rules come to when they are written out. -/
structure Faithful (L : Lowering M N) (shape : N → List (List (Symbol N))) : Prop where
  shape_sub : ∀ n, shape n ⊆ L.alternatives n
  sub_shape : ∀ n, L.alternatives n ⊆ shape n
  listed : ∀ m, L.listed (L.rules m) = true
  /-- Rules without a category are not nested beyond the bound. -/
  inlined : ∀ m, L.category? (.rule m) = none →
    L.expand (L.rules m) ⊆ L.expandTo L.depth (L.rules m)

theorem role_of_category? {L : Lowering M N} {r : Role M} {n : N} (h : L.category? r = some n) :
    L.role n = r := by
  have hFound := List.find?_some h
  exact of_decide_eq_true hFound

end Expansion

-- ---------------------------------------------------------------------------------------------
-- From trees to clauses
-- ---------------------------------------------------------------------------------------------

section Meaning

variable (L : Lowering M N)

/-- What a symbol stands for among the written rules. -/
def Means : Symbol N → List Terminal → Prop
  | .tok t, w => w = [t]
  | .cat n, w => Clause.Derives L.rules (L.role n).clause w

/-- What symbols side by side stand for. -/
def MeansAll : List (Symbol N) → List Terminal → Prop
  | [], w => w = []
  | s :: ss, w => ∃ u v, w = u ++ v ∧ Means L s u ∧ MeansAll ss v

end Meaning

variable {L : Lowering M N}

theorem meansAll_append {xs ys : List (Symbol N)} {w : List Terminal} (h : MeansAll L (xs ++ ys) w) :
    ∃ u v, w = u ++ v ∧ MeansAll L xs u ∧ MeansAll L ys v := by
  induction xs generalizing w with
  | nil => exact ⟨[], w, rfl, rfl, h⟩
  | cons s xs ih =>
    obtain ⟨u, v, rfl, hFirst, hRest⟩ := h
    obtain ⟨u', v', rfl, hLeft, hRight⟩ := ih hRest
    exact ⟨u ++ u', v', (List.append_assoc ..).symm, ⟨u, u', rfl, hFirst, hLeft⟩, hRight⟩

theorem meansAll_cat {n : N} {w : List Terminal} (h : MeansAll L [.cat n] w) :
    Clause.Derives L.rules (L.role n).clause w := by
  obtain ⟨u, v, rfl, hFirst, rfl⟩ := h
  rw [List.append_nil]
  exact hFirst

theorem derives_many_of_list {a : Clause M} {w : List Terminal}
    (h : Clause.Derives L.rules (.seq a (.many a)) w) : Clause.Derives L.rules (.many a) w := by
  cases h with
  | seq hFirst hMore =>
    cases hMore with
    | many ws hWs => exact .many (_ :: ws) (List.forall_mem_cons.mpr ⟨hFirst, hWs⟩)

variable [DecidableEq M]

/-- What an alternative of a clause stands for is derived from the clause. -/
theorem derives_of_expandWith {inner : M → List (List (Symbol N))}
    (hInner : ∀ m, ∀ x ∈ inner m, ∀ w, MeansAll L x w → Clause.Derives L.rules (L.rules m) w)
    (a : Clause M) {x : List (Symbol N)} (hx : x ∈ L.expandWith inner a) {w : List Terminal}
    (h : MeansAll L x w) : Clause.Derives L.rules a w := by
  induction a generalizing x w with
  | tok t =>
    obtain rfl := List.mem_singleton.mp hx
    obtain ⟨u, v, rfl, rfl, rfl⟩ := h
    exact .tok t
  | rule m =>
    rw [expandWith] at hx
    split at hx
    · rename_i n hn
      obtain rfl := List.mem_singleton.mp hx
      have hRule := meansAll_cat h
      rwa [role_of_category? hn] at hRule
    · exact .rule (hInner m x hx w h)
  | seq a b iha ihb =>
    obtain ⟨y, hy, hx⟩ := List.mem_flatMap.mp hx
    obtain ⟨z, hz, rfl⟩ := List.mem_map.mp hx
    obtain ⟨u, v, rfl, hLeft, hRight⟩ := meansAll_append h
    exact .seq (iha hy hLeft) (ihb hz hRight)
  | alt a b iha ihb =>
    rcases List.mem_append.mp hx with hx | hx
    · exact .left (iha hx h)
    · exact .right (ihb hx h)
  | opt a iha =>
    rcases List.mem_append.mp hx with hx | hx
    · exact .once (iha hx h)
    · obtain rfl := List.mem_singleton.mp hx
      obtain rfl : w = [] := h
      exact .skip a
  | many a _ =>
    rw [expandWith] at hx
    split at hx
    · rename_i n hn
      rcases List.mem_cons.mp hx with rfl | hx
      · have hList := meansAll_cat h
        rw [role_of_category? hn] at hList
        exact derives_many_of_list hList
      · obtain rfl := List.mem_singleton.mp hx
        obtain rfl : w = [] := h
        exact .many [] (List.forall_mem_nil _)
    · cases hx
  | commas a _ =>
    rw [expandWith] at hx
    split at hx
    · rename_i n hn
      obtain rfl := List.mem_singleton.mp hx
      have hList := meansAll_cat h
      rwa [role_of_category? hn] at hList
    · cases hx

theorem derives_of_expandTo (k : Nat) (a : Clause M) {x : List (Symbol N)}
    (hx : x ∈ L.expandTo k a) {w : List Terminal} (h : MeansAll L x w) :
    Clause.Derives L.rules a w := by
  induction k generalizing a x w with
  | zero => exact derives_of_expandWith (fun _ _ hNone => by cases hNone) a hx h
  | succ k ih => exact derives_of_expandWith (fun m y hy v hv => ih (L.rules m) hy hv) a hx h

/-- What an alternative of a category stands for, the category stands for. -/
theorem derives_of_alternatives {n : N} {x : List (Symbol N)} (hx : x ∈ L.alternatives n)
    {w : List Terminal} (h : MeansAll L x w) : Clause.Derives L.rules (L.role n).clause w := by
  unfold alternatives at hx
  split at hx
  · rename_i m hRole
    rw [hRole]
    exact .rule (derives_of_expandTo _ _ hx h)
  · rename_i a hRole
    rw [hRole]
    rcases List.mem_append.mp hx with hx | hx
    · obtain ⟨y, hy, rfl⟩ := List.mem_map.mp hx
      obtain ⟨u, v, rfl, hList, hLast⟩ := h
      rw [Means, hRole] at hList
      cases hList with
      | seq hFirst hMore =>
        cases hMore with
        | many ws hWs =>
          have hMany : Clause.Derives L.rules (.many a) (ws ++ [v]).flatten := by
            refine .many _ (List.forall_mem_append.mpr ⟨hWs, ?_⟩)
            exact List.forall_mem_singleton.mpr (derives_of_expandTo _ _ hy hLast)
          rw [List.append_assoc, ← List.flatten_concat]
          exact .seq hFirst hMany
    · have hNone : Clause.Derives L.rules (.many a) [] := .many [] (List.forall_mem_nil _)
      rw [← List.append_nil w]
      exact .seq (derives_of_expandTo _ _ hx h) hNone
  · rename_i a hRole
    rw [hRole]
    rcases List.mem_append.mp hx with hx | hx
    · obtain ⟨y, hy, rfl⟩ := List.mem_map.mp hx
      obtain ⟨u, v, rfl, hList, hComma⟩ := h
      obtain ⟨_, v, rfl, rfl, hLast⟩ := hComma
      rw [Means, hRole] at hList
      cases hList with
      | commas ws hFirst hWs =>
        have hMore : Clause.Derives L.rules (.commas a) _ :=
          .commas (ws ++ [v]) hFirst (List.forall_mem_append.mpr ⟨hWs,
            List.forall_mem_singleton.mpr (derives_of_expandTo _ _ hy hLast)⟩)
        simpa [Role.clause, List.flatMap_append] using hMore
    · have hOne : Clause.Derives L.rules (.commas a) (w ++ ([] : List (List Terminal)).flatMap _) :=
        .commas [] (derives_of_expandTo _ _ hx h) (List.forall_mem_nil _)
      simpa [Role.clause] using hOne

mutual

/-- The terminals of a tree are derived from what its symbol stands for. -/
theorem means_of_tree {G : Grammar V} (hL : L.Faithful G.shape) : {s : Symbol N} → (tree : Tree G s) →
    Means L s (tree.yield.map Token.kind)
  | _, .leaf t token h => by rw [Tree.yield, List.map_singleton, h]; rfl
  | _, .node n i children => by
    have hMem : ((G.rule n).alternatives.get i).symbols ∈ L.alternatives n :=
      hL.shape_sub n (List.mem_map_of_mem (List.get_mem _ i))
    rw [Tree.yield]
    exact derives_of_alternatives hMem (means_of_forest hL children)

theorem means_of_forest {G : Grammar V} (hL : L.Faithful G.shape) :
    {ss : List (Symbol N)} → (f : Forest G ss) → MeansAll L ss (f.yield.map Token.kind)
  | _, .nil => rfl
  | _, .cons _ _ tree rest =>
    ⟨_, _, by rw [Forest.yield, List.map_append], means_of_tree hL tree, means_of_forest hL rest⟩

end

-- ---------------------------------------------------------------------------------------------
-- From clauses to trees
-- ---------------------------------------------------------------------------------------------

section Complete

variable {G : Grammar V}

/-- Some alternative of a clause derives the terminals. -/
def Reached (L : Lowering M N) (G : Grammar V) (a : Clause M) (w : List Terminal) : Prop :=
  ∃ ss ∈ L.expand a, DerivesAll G ss w

/-- Parts in a row are derived from the category of their list: it takes one part after the other at
its end. -/
theorem derives_list (hL : L.Faithful G.shape) {a : Clause M} {n : N} (hRole : L.role n = .list a)
    (ws : List (List Terminal)) (hWs : ∀ w ∈ ws, Reached L G a w) (hSome : ws ≠ []) :
    Derives G (.cat n) ws.flatten := by
  have hAlternatives : L.alternatives n = (L.expand a).map (.cat n :: ·) ++ L.expand a := by
    rw [alternatives, hRole]
  induction ws using List.reverseRecOn with
  | nil => exact absurd rfl hSome
  | append_singleton ws w ih =>
    obtain ⟨ss, hss, hLast⟩ := hWs w (by simp)
    rw [List.flatten_concat, derives_cat]
    by_cases hNil : ws = []
    · subst hNil
      refine ⟨ss, hL.sub_shape n ?_, by simpa using hLast⟩
      rw [hAlternatives]
      exact List.mem_append_right _ hss
    · refine ⟨.cat n :: ss, hL.sub_shape n ?_, derivesAll_cons.mpr ⟨_, _, rfl, ?_, hLast⟩⟩
      · rw [hAlternatives]
        exact List.mem_append_left _ (List.mem_map_of_mem hss)
      · exact ih (fun v hv => hWs v (List.mem_append_left _ hv)) hNil

theorem derives_commas (hL : L.Faithful G.shape) {a : Clause M} {n : N}
    (hRole : L.role n = .commas a) {u : List Terminal} (hu : Reached L G a u)
    (ws : List (List Terminal)) (hWs : ∀ w ∈ ws, Reached L G a w) :
    Derives G (.cat n) (u ++ ws.flatMap (.comma :: ·)) := by
  have hAlternatives : L.alternatives n =
      (L.expand a).map (fun x => .cat n :: .tok .comma :: x) ++ L.expand a := by
    rw [alternatives, hRole]
  induction ws using List.reverseRecOn with
  | nil =>
    obtain ⟨ss, hss, hFirst⟩ := hu
    refine derives_cat.mpr ⟨ss, hL.sub_shape n ?_, by simpa using hFirst⟩
    rw [hAlternatives]
    exact List.mem_append_right _ hss
  | append_singleton ws w ih =>
    obtain ⟨ss, hss, hLast⟩ := hWs w (by simp)
    have hInit := ih fun v hv => hWs v (List.mem_append_left _ hv)
    refine derives_cat.mpr ⟨.cat n :: .tok .comma :: ss, hL.sub_shape n ?_, ?_⟩
    · rw [hAlternatives]
      exact List.mem_append_left _ (List.mem_map_of_mem hss)
    · refine derivesAll_cons.mpr ⟨_, .comma :: w, by simp [List.flatMap_append], hInit, ?_⟩
      exact derivesAll_cons.mpr ⟨[.comma], w, rfl, derives_tok.mpr rfl, hLast⟩

/-- What is derived from a clause is derived from one of its alternatives. -/
theorem reached_of_derives (hL : L.Faithful G.shape) {a : Clause M} {w : List Terminal}
    (h : Clause.Derives L.rules a w) (hListed : L.listed a = true) : Reached L G a w := by
  induction h with
  | tok t => exact ⟨[.tok t], List.mem_singleton_self _, derivesAll_single.mpr (derives_tok.mpr rfl)⟩
  | @rule m w _ ih =>
    obtain ⟨ss, hss, hDerives⟩ := ih (hL.listed m)
    cases hCategory : L.category? (.rule m) with
    | none =>
      refine ⟨ss, ?_, hDerives⟩
      have hInlined := hL.inlined m hCategory hss
      simpa only [expand, expandTo, expandWith, hCategory] using hInlined
    | some n =>
      refine ⟨[.cat n], ?_, derivesAll_single.mpr (derives_cat.mpr ⟨ss, hL.sub_shape n ?_, hDerives⟩)⟩
      · simp only [expand, expandTo, expandWith, hCategory, List.mem_singleton]
      · rw [alternatives, role_of_category? hCategory]
        exact hss
  | seq _ _ iha ihb =>
    rw [listed, Bool.and_eq_true] at hListed
    obtain ⟨xs, hxs, hLeft⟩ := iha hListed.1
    obtain ⟨ys, hys, hRight⟩ := ihb hListed.2
    exact ⟨xs ++ ys, List.mem_flatMap.mpr ⟨xs, hxs, List.mem_map_of_mem hys⟩, hLeft.append hRight⟩
  | left _ ih =>
    rw [listed, Bool.and_eq_true] at hListed
    obtain ⟨ss, hss, hDerives⟩ := ih hListed.1
    exact ⟨ss, List.mem_append_left _ hss, hDerives⟩
  | right _ ih =>
    rw [listed, Bool.and_eq_true] at hListed
    obtain ⟨ss, hss, hDerives⟩ := ih hListed.2
    exact ⟨ss, List.mem_append_right _ hss, hDerives⟩
  | skip a => exact ⟨[], List.mem_append_right _ (List.mem_singleton_self _), derivesAll_nil.mpr rfl⟩
  | once _ ih =>
    obtain ⟨ss, hss, hDerives⟩ := ih hListed
    exact ⟨ss, List.mem_append_left _ hss, hDerives⟩
  | @many a ws _ ih =>
    rw [listed, Bool.and_eq_true] at hListed
    obtain ⟨n, hn⟩ := Option.isSome_iff_exists.mp hListed.1
    have hExpand : L.expand (.many a) = [[.cat n], []] := by
      simp only [expand, expandTo, expandWith, hn]
    by_cases hNil : ws = []
    · subst hNil
      exact ⟨[], by simp [hExpand], derivesAll_nil.mpr rfl⟩
    · refine ⟨[.cat n], by simp [hExpand], derivesAll_single.mpr ?_⟩
      exact derives_list hL (role_of_category? hn) ws (fun w hw => ih w hw hListed.2) hNil
  | @commas a u ws _ _ ihu ih =>
    rw [listed, Bool.and_eq_true] at hListed
    obtain ⟨n, hn⟩ := Option.isSome_iff_exists.mp hListed.1
    refine ⟨[.cat n], ?_, derivesAll_single.mpr ?_⟩
    · simp only [expand, expandTo, expandWith, hn, List.mem_singleton]
    · exact derives_commas hL (role_of_category? hn) (ihu hListed.2) ws
        fun w hw => ih w hw hListed.2

end Complete

end Lowering

end ClientBoundary.Grammar
