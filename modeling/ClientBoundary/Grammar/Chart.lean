import ClientBoundary.Grammar.Basic

/-!
# Charts

Recognition goes from left to right and keeps, after every token, which alternatives may be under
way. An alternative with a mark before, between or after its symbols is a *slot*; a slot together
with the position where its phrase began is an item. After `j` tokens the items are grouped by
that position: the slots begun at one position are a set, and sets of slots are natural numbers
read as bit sets. Moving the mark over a symbol is then a shift by one bit, because the slots of
an alternative are numbered side by side.

* `Layout` — the numbering of the slots and the sets that recognition needs: which slots wait
  for a terminal or a category, which end a category, and which may begin when a category is
  awaited.
* `Column` — the sets after some number of tokens, newest position first. Positions with no slot
  under way are left out, so a column is about as long as the phrases are nested.
* `Chart.next` — one more token: move the mark over it, move marks over every category that has
  just ended, and begin the categories that are now awaited.
* `Chart.expected` — the terminals that can come next.
* `Chart.tree` — the preferred tree of what was recognized.

No category may be empty. A category that ends where it began after one other category is
finished in the same pass if that other one is listed before it; the list of categories handed
to a layout is therefore ordered from the parts to the wholes.
-/

namespace ClientBoundary.Grammar

variable {N : Type}

/-- Sets of natural numbers as bits. -/
abbrev Bits := Nat

namespace Bits

/-- The set of the listed numbers. -/
def ofList (xs : List Nat) : Bits := xs.foldl (fun m x => m ||| (1 <<< x)) 0

/-- The union of the listed sets. -/
def union (ms : List Bits) : Bits := ms.foldl (fun m l => m ||| l) 0

/-- A set of pairs with second parts below `width`, as one set of numbers. -/
def pack (width : Nat) (pairs : List (Nat × Nat)) : Bits :=
  ofList (pairs.map fun p => p.1 * width + p.2)

/-- The second parts of the pairs with first part `i`. -/
def row (width : Nat) (m : Bits) (i : Nat) : Bits := (m >>> (i * width)) % (1 <<< width)

/-- The relation whose rows are given, with the steps added that go through `k`. -/
def through (rows : List Bits) (k : Nat) : List Bits :=
  let via := rows.getD k 0
  rows.map fun r => if r.testBit k then r ||| via else r

/-- The transitive closure of the relation whose rows are given: going through one number after
the other adds all steps there are. -/
def closure (rows : List Bits) : List Bits := (List.range rows.length).foldl through rows

end Bits

/-- An alternative of a category with the number of its first slot. -/
structure Entry (N : Type) where
  category : N
  symbols : List (Symbol N)
  base : Nat
deriving Repr

namespace Entry

/-- The number of the slot with the mark at the end. -/
def last (e : Entry N) : Nat := e.base + e.symbols.length

/-- The category that an alternative begins with, if it begins with one. -/
def corner? (e : Entry N) : Option N :=
  match e.symbols with
  | .cat n :: _ => some n
  | _ => none

/-- The slots of an alternative that wait for something, each with the number of what it waits
for. -/
def awaiting (code : Symbol N → Nat) (e : Entry N) : List (Nat × Nat) :=
  e.symbols.zipIdx.map fun p => (code p.1, e.base + p.2)

end Entry

/-- Alternatives numbered one after the other from a first slot on. -/
def numberAlternatives (n : N) : List (List (Symbol N)) → Nat → List (Entry N)
  | [], _ => []
  | ss :: rest, base => ⟨n, ss, base⟩ :: numberAlternatives n rest (base + ss.length + 1)

/-- The first slot after those of some alternatives. -/
def slotsAfter (alternatives : List (List (Symbol N))) (base : Nat) : Nat :=
  alternatives.foldl (fun b ss => b + ss.length + 1) base

/-- The alternatives of each of the listed categories, numbered. -/
def groupsFrom (shape : N → List (List (Symbol N))) : List N → Nat → List (List (Entry N))
  | [], _ => []
  | n :: ns, base =>
    numberAlternatives n (shape n) base :: groupsFrom shape ns (slotsAfter (shape n) base)

/-- The sets of slots that belong to one category. -/
structure CategorySlots where
  /-- The slots that wait for the category. -/
  awaits : Bits := 0
  /-- The slots that end it. -/
  ends : Bits := 0
  /-- The slots that may begin when it is awaited. -/
  begins : Bits := 0
  /-- The first slot of each of its alternatives. -/
  bases : List Nat := []
deriving Repr, Inhabited

/-- The sets of slots that recognition works with. -/
structure Layout (N : Type) where
  /-- The number of a category. -/
  index : N → Nat
  /-- The slots that wait for a terminal, by its number. -/
  tokenTable : Array Bits
  /-- The slots of each category, from the parts to the wholes. -/
  rows : List CategorySlots
  /-- The slots of each category by its number. -/
  categoryTable : Array CategorySlots

namespace Layout

/-- The slots that wait for a terminal. -/
def awaitsToken (L : Layout N) (t : Terminal) : Bits := L.tokenTable.getD t.ctorIdx 0

/-- The slots of a category. -/
def slotsOf (L : Layout N) (n : N) : CategorySlots := L.categoryTable.getD (L.index n) {}

/-- The slots that end a category. -/
def ends (L : Layout N) (n : N) : Bits := (L.slotsOf n).ends

/-- The slots that may begin when a category is awaited. -/
def begins (L : Layout N) (n : N) : Bits := (L.slotsOf n).begins

/-- The first slot of each alternative of a category. -/
def bases (L : Layout N) (n : N) : List Nat := (L.slotsOf n).bases

/-- The number of a symbol among all terminals and categories. -/
def code (index : N → Nat) : Symbol N → Nat
  | .tok t => t.ctorIdx
  | .cat n => Terminal.all.length + index n

/-- A number above those of all slots. -/
def width (entries : List (Entry N)) : Nat := entries.foldl (fun w e => max w (e.last + 1)) 0

/-- The first slots of the categories in a set. -/
def beginning (groups : List (List (Entry N))) (numbers : Bits) : Bits :=
  Bits.union (groups.zipIdx.map fun p =>
    if numbers.testBit p.2 then Bits.ofList (p.1.map Entry.base) else 0)

/-- The layout of a grammar of the given shape, whose categories are numbered by `index` in the
order in which they are listed. -/
def of (categories : List N) (index : N → Nat) (shape : N → List (List (Symbol N))) : Layout N :=
  let groups := groupsFrom shape categories 0
  let own := fun n => groups.getD (index n) []
  let entries := groups.flatten
  let width := width entries
  let awaited := Bits.pack width (entries.flatMap (Entry.awaiting (code index)))
  -- which categories may begin where a category begins: the category itself, those that its
  -- alternatives begin with, and so on
  let reached := Bits.closure (categories.map fun n =>
    Bits.ofList (index n :: ((own n).filterMap Entry.corner?).map index))
  let slots := fun n =>
    { awaits := Bits.row width awaited (code index (.cat n))
      ends := Bits.ofList ((own n).map Entry.last)
      begins := beginning groups (reached.getD (index n) 0)
      bases := (own n).map Entry.base : CategorySlots }
  { index := index
    tokenTable := (Terminal.all.map fun t => Bits.row width awaited (code index (.tok t))).toArray
    rows := categories.map slots
    categoryTable := (categories.map slots).toArray }

end Layout

/-- The slots under way after some tokens: for each position where a phrase of theirs began, from
the newest to the oldest, the set of its slots. -/
abbrev Column := List (Nat × Bits)

/-- The columns after each number of tokens, the oldest first. -/
abbrev Chart := Array Column

namespace Column

/-- The slots whose phrase began at a position. -/
def slotsFrom (c : Column) (i : Nat) : Bits :=
  match c.find? (·.1 = i) with
  | none => 0
  | some e => e.2

/-- All slots of a column. -/
def union (c : Column) : Bits := Bits.union (c.map (·.2))

/-- The slots of a column that wait for something in `awaited`, with the mark moved over it. -/
def advance (awaited : Bits) (c : Column) : Column :=
  c.filterMap fun e =>
    let m := (e.2 &&& awaited) <<< 1
    if m = 0 then none else some (e.1, m)

/-- Merge the slots of one position into a column, the newer positions of which stay in front.
`rest` merges what is older than the position. -/
def mergeAt (i : Nat) (m : Bits) (rest : Column → Column) : Column → Column
  | [] => (i, m) :: rest []
  | (k, l) :: c =>
    if k = i then (i, m ||| l) :: rest c
    else if k < i then (i, m) :: rest ((k, l) :: c)
    else (k, l) :: mergeAt i m rest c

/-- The union of two columns, position by position. -/
def merge : Column → Column → Column
  | [], d => d
  | (i, m) :: c, d => mergeAt i m (merge c) d

/-- Add slots, newest position first, to those begun at position `i` and to the older ones. -/
def addTo (i : Nat) (s : Bits × Column) : Column → Bits × Column
  | [] => s
  | (k, m) :: ms => if k = i then (s.1 ||| m, merge ms s.2) else (s.1, merge ((k, m) :: ms) s.2)

/-- Move marks over the categories that end here and began at position `i`, the column of which
is `origin`. `here` are the slots begun there, `older` those begun before. -/
def completeAt (L : Layout N) (i : Nat) (origin : Column) (here : Bits) (older : Column) :
    Bits × Column :=
  L.rows.foldl
    (fun s r => if s.1 &&& r.ends = 0 then s else addTo i s (advance r.awaits origin))
    (here, older)

/-- Move marks over all categories that have just ended, those begun last first. All positions
lie below `bound`. -/
def complete (L : Layout N) (chart : Chart) : (bound : Nat) → Column → Column
  | 0, c => c
  | _ + 1, [] => []
  | bound + 1, (i, here) :: older =>
    let s := completeAt L i (chart.getD i []) here older
    (i, s.1) :: complete L chart bound s.2

/-- The slots that begin at the end of a column: those of all awaited categories. -/
def predict (L : Layout N) (c : Column) : Bits :=
  let all := c.union
  L.rows.foldl (fun m r => if all &&& r.awaits = 0 then m else m ||| r.begins) 0

end Column

namespace Chart

/-- The chart before the first token, when a phrase of category `n` is wanted. -/
def start (L : Layout N) (n : N) : Chart := #[[(0, L.begins n)]]

/-- The newest column. -/
def newest (chart : Chart) : Column := chart.getD (chart.size - 1) []

/-- The column after one more token, if some slot waits for it. -/
def next (L : Layout N) (chart : Chart) (t : Terminal) : Option Column :=
  match chart.newest.advance (L.awaitsToken t) with
  | [] => none
  | moved =>
    let done := Column.complete L chart chart.size moved
    some ((chart.size, Column.predict L done) :: done)

/-- The terminals that can come next. -/
def expected (L : Layout N) (chart : Chart) : List Terminal :=
  let all := chart.newest.union
  Terminal.all.filter fun t => all &&& L.awaitsToken t ≠ 0

/-- The slots under way after `j` tokens whose phrase began after `i` tokens. -/
def slots (chart : Chart) (i j : Nat) : Bits := (chart.getD j []).slotsFrom i

/-- Whether a slot is under way between two positions. -/
def has (chart : Chart) (i j slot : Nat) : Bool := (chart.slots i j).testBit slot

/-- Whether the tokens so far are a whole phrase of category `n`. -/
def accepts (L : Layout N) (n : N) (chart : Chart) : Bool :=
  chart.slots 0 (chart.size - 1) &&& L.ends n ≠ 0

/-- The last position from which the category `n` reaches `stop` and before which `slot`, begun
at `i`, was under way. -/
def lastStart (chart : Chart) (L : Layout N) (n : N) (i slot stop : Nat) : Option Nat :=
  (chart.getD stop []).findSome? fun e =>
    if e.2 &&& L.ends n ≠ 0 && chart.has i e.1 slot then some e.1 else none

/-- Where the symbols of an alternative begin, found from right to left: each symbol is given as
few tokens as possible. `before` are the symbols in front of the mark, the nearest first, and
`slot` is the slot of the mark. -/
def starts (chart : Chart) (L : Layout N) (i : Nat) :
    (before : List (Symbol N)) → (slot stop : Nat) → List Nat → Option (List Nat)
  | [], _, _, found => some found
  | .tok _ :: before, slot, stop, found =>
    match stop with
    | 0 => none
    | e + 1 => starts chart L i before (slot - 1) e (e :: found)
  | .cat n :: before, slot, stop, found =>
    match chart.lastStart L n i (slot - 1) stop with
    | none => none
    | some m => starts chart L i before (slot - 1) m (m :: found)

variable {V : N → Type}

/-- Trees for a sequence of symbols with given starts, from a way to find the tree of one. -/
def forest (G : Grammar V) (sub : (s : Symbol N) → Nat → Nat → Option (Tree G s)) (stop : Nat) :
    (ss : List (Symbol N)) → List Nat → Option (Forest G ss)
  | [], _ => some .nil
  | _ :: _, [] => none
  | s :: ss, i :: is =>
    match sub s i (is.headD stop), forest G sub stop ss is with
    | some t, some f => some (.cons s ss t f)
    | _, _ => none

/-- The first alternative of a category that spans two positions, with the slot of its end. -/
def alternative? (G : Grammar V) (L : Layout N) (chart : Chart) (n : N) (i j : Nat) :
    Option (Fin (G.rule n).alternatives.length × Nat) :=
  ((List.finRange (G.rule n).alternatives.length).zip (L.bases n)).findSome? fun p =>
    let slot := p.2 + ((G.rule n).alternatives.get p.1).symbols.length
    if chart.has i j slot then some (p.1, slot) else none

/-- The preferred tree of a symbol between two positions: of the alternatives that span them the
first, and in it each symbol, from the last on, with as few tokens as possible. `depth` bounds
the nesting of the tree. -/
def tree (G : Grammar V) (L : Layout N) (chart : Chart) (tokens : Array Token) :
    (depth : Nat) → (s : Symbol N) → (i j : Nat) → Option (Tree G s)
  | _, .tok t, i, _ =>
    match tokens[i]? with
    | some token => if h : token.kind = t then some (.leaf t token h) else none
    | none => none
  | 0, .cat _, _, _ => none
  | depth + 1, .cat n, i, j =>
    match alternative? G L chart n i j with
    | none => none
    | some (a, slot) =>
      match chart.starts L i ((G.rule n).alternatives.get a).symbols.reverse slot j [] with
      | none => none
      | some found =>
        match forest G (tree G L chart tokens depth) j ((G.rule n).alternatives.get a).symbols found with
        | none => none
        | some f => some (.node n a f)

end Chart

end ClientBoundary.Grammar
