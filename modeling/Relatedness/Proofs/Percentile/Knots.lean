import Mathlib.Data.List.Chain
import Mathlib.Order.Lattice
import Relatedness.Percentile.Curve

/-! The knots of a curve and the search among them. The search halves a range that still holds
the last knot up to a score, if there is any, so it counts just the knots up to the score. Where
knots ascend and none is NaN, it ends between two of them for every score within the sample. -/

namespace Relatedness

variable {S L : Type} [Scale S] [LinearOrder L]

open Scalar Scale

/-- The values that are not NaN have places on a line, which tell how they compare. -/
structure Scale.OrderedBy (place : S → L) : Prop where
  less_iff : ∀ {x y}, less x y = true ↔ isNaN x = false ∧ isNaN y = false ∧ place x < place y
  same_iff : ∀ {x y}, same x y = true ↔ isNaN x = false ∧ isNaN y = false ∧ place x = place y

/-- A value with room for a number of steps can be moved up so often. -/
structure Scale.Climbs (place : S → L) (room : Nat → S → Prop) : Prop where
  isNaN : ∀ {n x}, room n x → isNaN x = false
  up : ∀ {n x}, room (n + 1) x → place x < place (nextUp x) ∧ room n (nextUp x)
  fewer : ∀ {n x}, room (n + 1) x → room n x

theorem Scale.OrderedBy.atMost_iff {place : S → L} (h : OrderedBy place) {x y : S} :
    atMost x y = true ↔ isNaN x = false ∧ isNaN y = false ∧ place x ≤ place y := by
  rw [atMost, Bool.or_eq_true, h.less_iff, h.same_iff, le_iff_lt_or_eq]
  tauto

namespace Curve

/-! ## Searching -/

/-- The knot with this number is not above the score. -/
def IsUpTo (c : Curve S) (x : S) (i : Nat) : Prop := (c.knots[i]?).any (atMost · x) = true

instance (c : Curve S) (x : S) (i : Nat) : Decidable (c.IsUpTo x i) :=
  inferInstanceAs (Decidable (_ = true))

variable {c : Curve S} {x : S}

theorem isUpTo_iff {i : Nat} : c.IsUpTo x i ↔ ∃ k, c.knots[i]? = some k ∧ atMost k x = true := by
  unfold IsUpTo
  cases c.knots[i]? <;> simp

/-- The knot that the search ends at is up to the score unless it is the first, and no knot
behind it is. The range always begins with such a knot, and none behind it is up to the score. -/
theorem bisect_spec (hascend : ∀ i j, i ≤ j → c.IsUpTo x j → c.IsUpTo x i) {base size : Nat}
    (hbase : base = 0 ∨ c.IsUpTo x base) (hbehind : ∀ i, base + size ≤ i → ¬c.IsUpTo x i) :
    (c.bisect x base size = 0 ∨ c.IsUpTo x (c.bisect x base size)) ∧
      ∀ i, c.bisect x base size < i → ¬c.IsUpTo x i := by
  fun_induction c.bisect x base size with
  | case1 base size hsize => exact ⟨hbase, fun i hi => hbehind i (by omega)⟩
  | case2 base size hsize half middle next ih =>
    by_cases hmiddle : c.IsUpTo x middle
    · have hnext : next = middle := if_pos hmiddle
      rw [hnext] at ih ⊢
      exact ih (.inr hmiddle) fun i hi => hbehind i (by omega)
    · have hnext : next = base := if_neg hmiddle
      rw [hnext] at ih ⊢
      exact ih hbase fun i hi hupTo => hmiddle (hascend middle i (by omega) hupTo)

/-- The knots that are counted are those up to the score. -/
theorem lt_knotsUpTo_iff (hascend : ∀ i j, i ≤ j → c.IsUpTo x j → c.IsUpTo x i) {i : Nat} :
    i < c.knotsUpTo x ↔ c.IsUpTo x i := by
  have hend : ∀ i, 0 + c.knots.size ≤ i → ¬c.IsUpTo x i := by
    intro i hi hupTo
    obtain ⟨k, hk, _⟩ := isUpTo_iff.mp hupTo
    rw [Array.getElem?_eq_none (by omega)] at hk
    cases hk
  obtain ⟨hlast, hbehind⟩ := bisect_spec hascend (.inl rfl) hend
  have hcount : c.knotsUpTo x = if c.IsUpTo x (c.bisect x 0 c.knots.size) then
      c.bisect x 0 c.knots.size + 1 else c.bisect x 0 c.knots.size := rfl
  rw [hcount]
  by_cases hupTo : c.IsUpTo x (c.bisect x 0 c.knots.size)
  · rw [if_pos hupTo]
    refine ⟨fun hi => hascend i _ (by omega) hupTo, fun hi => ?_⟩
    exact Nat.lt_succ_of_le (Nat.le_of_not_lt fun hlt => hbehind i hlt hi)
  · rw [if_neg hupTo]
    have hzero := hlast.resolve_right hupTo
    refine ⟨fun hi => by omega, fun hi => ?_⟩
    exact absurd (hascend _ i (by omega) hi) hupTo

/-! ## Separating -/

theorem length_separateFrom (previous : S) (l : List S) :
    (separateFrom previous l).length = l.length := by
  induction l generalizing previous with
  | nil => rfl
  | cons x rest ih => rw [separateFrom, List.length_cons, List.length_cons, ih]

theorem length_separate (l : List S) : (separate l).length = l.length := by
  cases l with
  | nil => rfl
  | cons x rest => rw [separate, List.length_cons, List.length_cons, length_separateFrom]

theorem knots_of_sorted {sample : List S} {c : Curve S} (h : ofSorted? sample = some c) :
    c.knots = (separate sample).toArray := by
  cases sample with
  | nil => cases h
  | cons x rest =>
    cases h
    rfl

/-- A curve ends where its sample does. -/
theorem ends_of_sorted {sample : List S} {c : Curve S} (h : ofSorted? sample = some c) :
    sample.head? = some c.low ∧ sample.getLast? = some c.high := by
  cases sample with
  | nil => cases h
  | cons x rest =>
    cases h
    exact ⟨rfl, List.getLast?_eq_some_getLast (List.cons_ne_nil x rest)⟩

theorem size_of_sorted {sample : List S} {c : Curve S} (h : ofSorted? sample = some c) :
    c.knots.size = sample.length := by
  rw [knots_of_sorted h, List.size_toArray, length_separate]

variable {place : S → L} {room : Nat → S → Prop}

/-- Separated values ascend, and none is moved down. A value is moved up from the one before it,
which may have been moved itself, so the room for a step at each value to come is kept. -/
theorem separateFrom_spec (hplace : OrderedBy place) (hclimbs : Climbs place room) {previous : S}
    {l : List S} (hprevious : room l.length previous) (hroom : ∀ x ∈ l, room l.length x) :
    (previous :: separateFrom previous l).IsChain (place · < place ·) ∧
      List.Forall₂ (fun x k => atMost x k = true) l (separateFrom previous l) := by
  induction l generalizing previous with
  | nil => exact ⟨.singleton previous, .nil⟩
  | cons x rest ih =>
    have hx := hroom x List.mem_cons_self
    have hknot : place previous < place (if atMost x previous then nextUp previous else x) ∧
        place x ≤ place (if atMost x previous then nextUp previous else x) ∧
        room rest.length (if atMost x previous then nextUp previous else x) := by
      split
      · obtain ⟨hlt, hroom⟩ := hclimbs.up hprevious
        obtain ⟨_, _, hle⟩ := hplace.atMost_iff.mp ‹_›
        exact ⟨hlt, hle.trans hlt.le, hroom⟩
      · rename_i hnot
        refine ⟨lt_of_not_ge fun hle => hnot ?_, le_rfl, hclimbs.fewer hx⟩
        exact hplace.atMost_iff.mpr ⟨hclimbs.isNaN hx, hclimbs.isNaN hprevious, hle⟩
    obtain ⟨hlt, hle, hroom'⟩ := hknot
    obtain ⟨hchain, hmoved⟩ := ih hroom' fun y hy =>
      hclimbs.fewer (hroom y (List.mem_cons_of_mem x hy))
    have hatMost := hplace.atMost_iff.mpr ⟨hclimbs.isNaN hx, hclimbs.isNaN hroom', hle⟩
    exact ⟨.cons_cons hlt hchain, .cons hatMost hmoved⟩

theorem separate_spec (hplace : OrderedBy place) (hclimbs : Climbs place room) {l : List S}
    (hroom : ∀ x ∈ l, room l.length x) :
    (separate l).Pairwise (place · < place ·) ∧
      List.Forall₂ (fun x k => atMost x k = true) l (separate l) := by
  cases l with
  | nil => exact ⟨.nil, .nil⟩
  | cons x rest =>
    have hx := hclimbs.fewer (hroom x List.mem_cons_self)
    obtain ⟨hchain, hmoved⟩ := separateFrom_spec hplace hclimbs hx fun y hy =>
      hclimbs.fewer (hroom y (List.mem_cons_of_mem x hy))
    have : IsTrans S (place · < place ·) := ⟨fun _ _ _ => lt_trans⟩
    have hatMost := hplace.atMost_iff.mpr ⟨hclimbs.isNaN hx, hclimbs.isNaN hx, le_rfl⟩
    exact ⟨hchain.pairwise, .cons hatMost hmoved⟩

variable {r : S → S → Prop}

/-- Values that ascend stay where they are. -/
theorem separateFrom_of_isChain (hnot : ∀ {x y}, r x y → atMost y x = false) {previous : S}
    {l : List S} (h : (previous :: l).IsChain r) : separateFrom previous l = l := by
  induction l generalizing previous with
  | nil => rfl
  | cons x rest ih =>
    obtain ⟨hx, hrest⟩ := List.isChain_cons_cons.mp h
    rw [separateFrom, hnot hx]
    exact congrArg (x :: ·) (ih hrest)

theorem separate_of_pairwise (hnot : ∀ {x y}, r x y → atMost y x = false) {l : List S}
    (h : l.Pairwise r) : separate l = l := by
  cases l with
  | nil => rfl
  | cons x rest => exact congrArg (x :: ·) (separateFrom_of_isChain hnot h.isChain)

/-! ## Between two knots -/

/-- What holds of the knots of a sorted sample: they ascend from its least value, and not all of
them lie below its greatest. -/
structure Ascends (c : Curve S) (place : S → L) : Prop where
  nonempty : 0 < c.knots.size
  isNaN : ∀ (i : Nat) (h : i < c.knots.size), isNaN c.knots[i] = false
  ascending : c.knots.toList.Pairwise (place · < place ·)
  low : c.knots[0] = c.low
  high : place c.high ≤ place c.knots[c.knots.size - 1]

theorem ascends_of_sorted (hplace : OrderedBy place) (hclimbs : Climbs place room)
    {sample : List S} (hroom : ∀ x ∈ sample, room sample.length x) {c : Curve S}
    (h : ofSorted? sample = some c) : c.Ascends place := by
  obtain ⟨hascending, hmoved⟩ := separate_spec hplace hclimbs hroom
  cases sample with
  | nil => cases h
  | cons x rest =>
    cases h
    have hlength : (separate (x :: rest)).length = (x :: rest).length := length_separate _
    refine ⟨?_, fun i hi => ?_, hascending, rfl, ?_⟩
    · simp [hlength]
    · exact (hplace.atMost_iff.mp (hmoved.get (i := i) (hlength ▸ hi) hi)).2.1
    · have hlast := hplace.atMost_iff.mp
        (hmoved.get (i := rest.length) (by simp) (by simp [hlength]))
      simpa [List.getLast_eq_getElem, hlength] using hlast.2.2

variable {i j : Nat}

theorem Ascends.place_lt (hc : c.Ascends place) (hij : i < j) (hj : j < c.knots.size) :
    place c.knots[i] < place c.knots[j] := by
  have hascending := List.pairwise_iff_getElem.mp hc.ascending i j
    (Array.length_toList ▸ hij.trans hj) (Array.length_toList ▸ hj) hij
  rwa [Array.getElem_toList, Array.getElem_toList] at hascending

theorem Ascends.place_le (hc : c.Ascends place) (hij : i ≤ j) (hj : j < c.knots.size) :
    place c.knots[i] ≤ place c.knots[j] := by
  rcases hij.lt_or_eq with hij | rfl
  · exact (hc.place_lt hij hj).le
  · exact le_rfl

/-- A score within the sample lies between two knots, and its value on the line between them. -/
theorem Ascends.exists_bracket (hplace : OrderedBy place) (hc : c.Ascends place)
    (hlow : atMost c.low x = true) (hhigh : less x c.high = true) :
    ∃ (i : Nat) (h : i + 1 < c.knots.size), c.knotsUpTo x = i + 1 ∧
      atMost c.knots[i] x = true ∧ less x c.knots[i + 1] = true ∧
      c.value x = c.height i + (x - c.knots[i]) / (c.knots[i + 1] - c.knots[i]) *
        (c.height (i + 1) - c.height i) := by
  have hnonempty := hc.nonempty
  obtain ⟨hlowNaN, hx, hlowLe⟩ := hplace.atMost_iff.mp hlow
  obtain ⟨_, hhighNaN, hhighLt⟩ := hplace.less_iff.mp hhigh
  have hupTo : ∀ i, c.IsUpTo x i ↔ ∃ h : i < c.knots.size, place c.knots[i] ≤ place x := by
    intro i
    simp only [isUpTo_iff, Array.getElem?_eq_some_iff, hplace.atMost_iff]
    constructor
    · rintro ⟨k, ⟨hi, rfl⟩, _, _, hle⟩
      exact ⟨hi, hle⟩
    · rintro ⟨hi, hle⟩
      exact ⟨_, ⟨hi, rfl⟩, hc.isNaN i hi, hx, hle⟩
  have hascend : ∀ i j, i ≤ j → c.IsUpTo x j → c.IsUpTo x i := by
    intro i j hij hj
    obtain ⟨hj, hle⟩ := (hupTo j).mp hj
    exact (hupTo i).mpr ⟨by omega, (hc.place_le hij hj).trans hle⟩
  have hfirst : 0 < c.knotsUpTo x :=
    (lt_knotsUpTo_iff hascend).mpr ((hupTo 0).mpr ⟨hnonempty, hc.low ▸ hlowLe⟩)
  have hlast : c.knotsUpTo x ≤ c.knots.size - 1 := by
    by_contra hnot
    obtain ⟨_, hle⟩ := (hupTo _).mp ((lt_knotsUpTo_iff hascend).mp (not_le.mp hnot))
    exact absurd (hc.high.trans hle) (not_le.mpr hhighLt)
  obtain ⟨i, hi⟩ : ∃ i, c.knotsUpTo x = i + 1 := ⟨c.knotsUpTo x - 1, by omega⟩
  have hsize : i + 1 < c.knots.size := by omega
  obtain ⟨hi', hbefore⟩ := (hupTo i).mp ((lt_knotsUpTo_iff hascend).mp (by omega))
  have hbehind : place x < place c.knots[i + 1] := by
    by_contra hnot
    have := (lt_knotsUpTo_iff hascend).mpr ((hupTo (i + 1)).mpr ⟨hsize, not_lt.mp hnot⟩)
    omega
  refine ⟨i, hsize, hi, hplace.atMost_iff.mpr ⟨hc.isNaN i hi', hx, hbefore⟩,
    hplace.less_iff.mpr ⟨hx, hc.isNaN (i + 1) hsize, hbehind⟩, ?_⟩
  have hless : ¬less x c.low = true := fun h =>
    absurd hlowLe (not_le.mpr (hplace.less_iff.mp h).2.2)
  have hmost : ¬atMost c.high x = true := fun h =>
    absurd hhighLt (not_lt.mpr (hplace.atMost_iff.mp h).2.2)
  unfold value
  simp only [hless, hmost, hi, if_neg hsize.ne, interpolate, Nat.add_sub_cancel,
    Array.getElem?_eq_getElem hi', Array.getElem?_eq_getElem hsize]
  rfl

end Curve
end Relatedness
