import MegatronDPU.Lib.Grid
import MegatronDPU.Lib.Raise

/-!
# Groups of ranks

`RankGenerator` reads an order of the parallel axes from a string and cuts the ranks of the world
into groups. If no axis of more than one rank is named twice, the ranks are the points of a grid
with these axes, and the groups are those of the grid: `getRanks_eq`.
-/

namespace MegatronDPU.Parallel

open Raise MixedRadix List

/-! ## `generate_masked_orthogonal_rank_groups` -/

def prefixProduct (init : ℕ) : List ℕ → List ℕ
  | [] => [init]
  | v :: a => init :: prefixProduct (init * v) a

def innerProduct (a b : List ℕ) : ℕ := (zipWith (· * ·) a b).sum

/-- `decompose`, with its assertion. -/
def decompose (index : ℕ) (shape : List ℕ) : Except PyError (List ℕ) := do
  let stride := prefixProduct 1 shape
  let idx := zipWith (fun s d => index / d % s) shape stride
  require (innerProduct idx stride.dropLast = index)
    (.assertionError ("idx " ++ toString index ++ " with shape " ++ toString shape ++
      " mismatch the return idx " ++ toString idx))
  return idx

/-- `generate_masked_orthogonal_rank_groups`. -/
def generateMaskedOrthogonalRankGroups (worldSize : ℕ) (parallelSize : List ℕ) (mask : List Bool) :
    Except PyError (List (List ℕ)) :=
  let maskedShape := pick mask parallelSize
  let unmaskedShape := pick (others mask) parallelSize
  let globalStride := prefixProduct 1 parallelSize
  let maskedStride := pick mask globalStride
  let unmaskedStride := pick (others mask) globalStride
  let groupSize := (prefixProduct 1 maskedShape).getLastD 1
  let numOfGroup := worldSize / groupSize
  (range numOfGroup).mapM fun groupIndex => do
    let decomposedGroupIdx ← decompose groupIndex unmaskedShape
    (range groupSize).mapM fun rankInGroup => do
      let decomposedRankIdx ← decompose rankInGroup maskedShape
      return innerProduct decomposedRankIdx maskedStride +
        innerProduct decomposedGroupIdx unmaskedStride

/-! ## `RankGenerator` -/

/-- The kinds of parallelism. -/
inductive Axis
  | tp
  | pp
  | dp
  | ep
  | cp
  deriving DecidableEq

instance : Fintype Axis := ⟨{.tp, .pp, .dp, .ep, .cp}, fun a => by cases a <;> decide⟩

def Axis.name : Axis → List Char
  | .tp => ['t', 'p']
  | .pp => ['p', 'p']
  | .dp => ['d', 'p']
  | .ep => ['e', 'p']
  | .cp => ['c', 'p']

/-- The keys of `name_to_size`. -/
def axes : List Axis := [.tp, .pp, .dp, .ep, .cp]

def axisOf (token : List Char) : Option Axis := axes.find? fun a => a.name = token

/-- The loop that appends missing axes of size 1 to the order. -/
def completeOrder (size : Axis → ℕ) (given : String) :
    List Axis → List Char → Except PyError (List Char)
  | [], order => .ok order
  | a :: names, order =>
    if a.name <:+: order then completeOrder size given names order
    else if size a ≠ 1 then
      .error (.runtimeError ("The size of (" ++ String.ofList a.name ++ ") is (" ++
        toString (size a) ++ "), but you haven'tspecified the order (" ++ given ++ ")."))
    else completeOrder size given names (order ++ '-' :: a.name)

/-- `RankGenerator`. The order is kept as text. -/
structure RankGenerator where
  size : Axis → ℕ
  rankOffset : ℕ
  worldSize : ℕ
  order : List Char
  orderedSize : List ℕ

namespace RankGenerator

/-- `name_to_size`. -/
def nameToSize (tp ep dp pp cp : ℕ) : Axis → ℕ
  | .tp => tp
  | .pp => pp
  | .dp => dp
  | .ep => ep
  | .cp => cp

/-- `RankGenerator.__init__`. -/
def init (tp ep dp pp cp : ℕ) (order : String) (rankOffset : ℕ) : Except PyError RankGenerator := do
  require (ep = 1 ∨ cp = 1) (.assertionError
    ("Both EP and CP > 1 in not allow in one rank generator.             CP is only included in " ++
      "default RankGenerator, and EP only in expert RankGenerator."))
  let size := nameToSize tp ep dp pp cp
  let completed ← completeOrder size order axes (order.toList.map Char.toLower)
  let orderedSize ← (completed.splitOn '-').mapM fun token =>
    match axisOf token with
    | some a => .ok (size a)
    | none => .error (.keyError (String.ofList token))
  return { size, rankOffset, orderedSize
           worldSize := tp * dp * pp * cp * ep
           order := completed }

/-- `get_mask`. -/
def getMask (order token : List Char) : Except PyError (List Bool) :=
  let orderedToken := order.splitOn '-'
  let tokenList := token.splitOn '-'
  tokenList.foldlM (fun mask t => do
    require (t ∈ orderedToken) (.valueError ("'" ++ String.ofList t ++ "' is not in list"))
    return mask.set (orderedToken.idxOf t) true) (replicate orderedToken.length false)

/-- `get_ranks`. -/
def getRanks (gen : RankGenerator) (token : String) : Except PyError (List (List ℕ)) := do
  let mask ← getMask gen.order token.toList
  let ranks ← generateMaskedOrthogonalRankGroups gen.worldSize gen.orderedSize mask
  return if 0 < gen.rankOffset then ranks.map fun group => group.map (· + gen.rankOffset)
    else ranks

/-- The axes that the order names. -/
def tokens (gen : RankGenerator) : List Axis := (gen.order.splitOn '-').filterMap axisOf

end RankGenerator

/-! ## The generator computes fibers -/

section Fibers

variable {shape ds us : List ℕ} {mask : List Bool} {n c : ℕ}

theorem zipWith_prefixProduct (index c : ℕ) (shape : List ℕ) :
    zipWith (fun s d => index / d % s) shape (prefixProduct c shape) =
      digits shape (index / c) := by
  induction shape generalizing c with
  | nil => rfl
  | cons s shape ih =>
    rw [prefixProduct, zipWith_cons_cons, ih, digits, Nat.div_div_eq_div_mul]

theorem prefixProduct_ne_nil (c : ℕ) (shape : List ℕ) : prefixProduct c shape ≠ [] := by
  cases shape <;> exact cons_ne_nil _ _

theorem innerProduct_dropLast (h : Fits shape ds) :
    innerProduct ds (prefixProduct c shape).dropLast = c * value shape ds := by
  induction h generalizing c with
  | nil => rfl
  | @cons s d shape ds _ _ ih =>
    rw [prefixProduct, dropLast_cons_of_ne_nil (prefixProduct_ne_nil _ _), innerProduct,
      zipWith_cons_cons, sum_cons, ← innerProduct, ih, value]
    ring

theorem getLastD_prefixProduct (c d : ℕ) (shape : List ℕ) :
    (prefixProduct c shape).getLastD d = c * shape.prod := by
  induction shape generalizing c d with
  | nil => exact (mul_one c).symm
  | cons s shape ih =>
    rw [prefixProduct, getLastD_cons, ih, prod_cons, mul_assoc]

theorem decompose_eq (hpos : ∀ s ∈ shape, 0 < s) (hn : n < shape.prod) :
    decompose n shape = .ok (digits shape n) := by
  unfold decompose
  dsimp only
  rw [zipWith_prefixProduct, Nat.div_one, innerProduct_dropLast (fits_digits hpos n), one_mul,
    value_digits hn, require_bind rfl]
  rfl

theorem innerProduct_merge (h : mask.length = shape.length) (hd : Fits (pick mask shape) ds)
    (hu : Fits (pick (others mask) shape) us) :
    innerProduct ds (pick mask (prefixProduct c shape)) +
      innerProduct us (pick (others mask) (prefixProduct c shape)) =
        c * value shape (merge mask ds us) := by
  induction mask generalizing shape ds us c with
  | nil =>
    rw [length_eq_zero_iff.mp h.symm] at hd hu ⊢
    cases hd
    cases hu
    rfl
  | cons b mask ih =>
    match shape with
    | s :: shape =>
      cases b with
      | true =>
        cases hd with
        | @cons _ d _ ds hd hds =>
          have hih := ih (c := c * s) (Nat.succ.inj h) hds hu
          show innerProduct (d :: ds) (c :: pick mask (prefixProduct (c * s) shape)) +
            innerProduct us (pick (others mask) (prefixProduct (c * s) shape)) =
              c * (d + s * value shape (merge mask ds us))
          rw [innerProduct, zipWith_cons_cons, sum_cons, ← innerProduct, mul_comm d c,
            add_assoc, hih]
          ring
      | false =>
        cases hu with
        | @cons _ u _ us hu hus =>
          have hih := ih (c := c * s) (Nat.succ.inj h) hd hus
          show innerProduct ds (pick mask (prefixProduct (c * s) shape)) +
            innerProduct (u :: us) (c :: pick (others mask) (prefixProduct (c * s) shape)) =
              c * (u + s * value shape (merge mask ds us))
          rw [innerProduct, innerProduct, zipWith_cons_cons, sum_cons, ← innerProduct,
            ← innerProduct, mul_comm u c, add_left_comm, hih]
          ring

theorem mapM_ok {α β : Type} {f : α → Except PyError β} {g : α → β} {l : List α}
    (h : ∀ a ∈ l, f a = .ok (g a)) : l.mapM f = .ok (l.map g) := by
  rw [mapM_eq_ok_iff, forall₂_map_right_iff, forall₂_same]
  exact h

theorem generateMaskedOrthogonalRankGroups_eq (hpos : ∀ s ∈ shape, 0 < s)
    (hlen : mask.length = shape.length) :
    generateMaskedOrthogonalRankGroups shape.prod shape mask = .ok (fibers mask shape) := by
  have hm : ∀ s ∈ pick mask shape, 0 < s := fun s hs => hpos s (mem_of_mem_pick hs)
  have ho : ∀ s ∈ pick (others mask) shape, 0 < s := fun s hs => hpos s (mem_of_mem_pick hs)
  unfold generateMaskedOrthogonalRankGroups
  dsimp only
  rw [getLastD_prefixProduct, one_mul, prod_div_prod_pick hpos hlen]
  refine mapM_ok fun g hg => ?_
  rw [decompose_eq ho (mem_range.mp hg)]
  refine mapM_ok fun i hi => ?_
  rw [decompose_eq hm (mem_range.mp hi)]
  show Except.ok _ = _
  rw [innerProduct_merge hlen (fits_digits hm i) (fits_digits ho g), one_mul]

end Fibers

/-! ## Orders -/

section Orders

variable {tp ep dp pp cp off : ℕ} {order : String} {gen : RankGenerator}

theorem axisOf_eq_some_iff {token : List Char} {a : Axis} :
    axisOf token = some a ↔ a.name = token := by
  constructor
  · intro h
    have hname := find?_some h
    exact of_decide_eq_true hname
  · rintro rfl
    cases a <;> rfl

theorem dash_not_mem_name (a : Axis) : '-' ∉ a.name := by
  cases a <;> decide

variable {s : List Char} {size : Axis → ℕ}

theorem exists_token_of_infix {l : List Char} (h : l <:+: s) (hl : '-' ∉ l) :
    ∃ t ∈ s.splitOn '-', l <:+: t := by
  obtain ⟨u, v, rfl⟩ := h
  induction u with
  | nil =>
    rw [nil_append]
    by_cases hv : '-' ∈ v
    · obtain ⟨v₁, v₂, rfl, hv₁⟩ := eq_append_cons_of_mem hv
      have hnot : '-' ∉ l ++ v₁ := by simp [hl, hv₁]
      rw [← append_assoc, splitOn_append_cons_self_of_not_mem hnot]
      exact ⟨l ++ v₁, mem_cons_self, (prefix_append l v₁).isInfix⟩
    · have hnot : '-' ∉ l ++ v := by simp [hl, hv]
      rw [splitOn_eq_singleton hnot]
      exact ⟨l ++ v, mem_singleton_self _, (prefix_append l v).isInfix⟩
  | cons c u ih =>
    obtain ⟨t, ht, hlt⟩ := ih
    rw [cons_append, cons_append, splitOn_cons_eq_if_modifyHead]
    split_ifs
    · exact ⟨t, mem_cons_of_mem _ ht, hlt⟩
    · match hs : (u ++ l ++ v).splitOn '-' with
      | [] => exact absurd hs (splitOn_ne_nil _ _)
      | t₀ :: ts =>
        rw [hs] at ht
        rcases mem_cons.mp ht with rfl | ht
        · exact ⟨c :: t, mem_cons_self, infix_cons hlt⟩
        · exact ⟨t, mem_cons_of_mem _ ht, hlt⟩

theorem completeOrder_spec {given : String} {names : List Axis} {completed : List Char}
    (h : completeOrder size given names s = .ok completed) :
    s <+: completed ∧ ∀ a ∈ names, a.name <:+: completed := by
  induction names generalizing s with
  | nil =>
    cases h
    exact ⟨prefix_rfl, nofun⟩
  | cons a names ih =>
    unfold completeOrder at h
    split_ifs at h with hin hsize
    · obtain ⟨hpre, hall⟩ := ih h
      exact ⟨hpre, forall_mem_cons.mpr ⟨hin.trans hpre.isInfix, hall⟩⟩
    · obtain ⟨hpre, hall⟩ := ih h
      have hname : a.name <:+: s ++ '-' :: a.name :=
        (List.IsSuffix.isInfix ⟨s ++ ['-'], by simp⟩)
      exact ⟨(prefix_append s _).trans hpre, forall_mem_cons.mpr ⟨hname.trans hpre.isInfix, hall⟩⟩

theorem completeOrder_of_named {given : String} {names : List Axis}
    (h : ∀ a ∈ names, a.name <:+: s) : completeOrder size given names s = .ok s := by
  induction names with
  | nil => rfl
  | cons a names ih =>
    rw [forall_mem_cons] at h
    rw [completeOrder, if_pos h.1, ih h.2]

theorem tokens_of_lookup {tokens : List (List Char)} {sizes : List ℕ}
    (h : Forall₂ (fun token n => (match axisOf token with
      | some a => .ok (size a)
      | none => .error (.keyError (String.ofList token)) : Except PyError ℕ) = .ok n) tokens sizes) :
    tokens = (tokens.filterMap axisOf).map Axis.name ∧
      sizes = (tokens.filterMap axisOf).map size := by
  induction h with
  | nil => exact ⟨rfl, rfl⟩
  | @cons token n tokens sizes hsize _ ih =>
    cases ha : axisOf token with
    | none =>
      rw [ha] at hsize
      cases hsize
    | some a =>
      rw [ha] at hsize
      rw [filterMap_cons_some ha, map_cons, map_cons, ← ih.1, ← ih.2,
        axisOf_eq_some_iff.mp ha, Except.ok.inj hsize]
      exact ⟨rfl, rfl⟩

/-- What the constructor accepts and stores. -/
theorem RankGenerator.init_spec (h : init tp ep dp pp cp order off = .ok gen) :
    gen.size = nameToSize tp ep dp pp cp ∧ gen.rankOffset = off ∧
      gen.worldSize = tp * dp * pp * cp * ep ∧
      gen.order.splitOn '-' = gen.tokens.map Axis.name ∧
      gen.orderedSize = gen.tokens.map gen.size ∧ ∀ a, a ∈ gen.tokens := by
  unfold init at h
  rw [require_bind_eq_ok] at h
  obtain ⟨completed, hcompleted, h⟩ := bind_eq_ok.mp h.2
  obtain ⟨orderedSize, hsizes, ⟨⟩⟩ := bind_eq_ok.mp h
  have hnames := tokens_of_lookup (mapM_eq_ok_iff.mp hsizes)
  refine ⟨rfl, rfl, rfl, hnames.1, hnames.2, fun a => ?_⟩
  obtain ⟨-, hin⟩ := completeOrder_spec hcompleted
  obtain ⟨t, ht, hat⟩ := exists_token_of_infix (hin a (by cases a <;> decide))
    (dash_not_mem_name a)
  -- all tokens are names, of one length
  rw [hnames.1] at ht
  obtain ⟨b, hb, rfl⟩ := mem_map.mp ht
  have hlen : a.name.length = b.name.length := by cases a <;> cases b <;> rfl
  have hab := congrArg axisOf (hat.eq_of_length hlen)
  rw [axisOf_eq_some_iff.mpr rfl, axisOf_eq_some_iff.mpr rfl] at hab
  rwa [Option.some.inj hab]

theorem RankGenerator.order_of_init (h : init tp ep dp pp cp order off = .ok gen)
    (hall : ∀ a ∈ axes, a.name <:+: order.toList.map Char.toLower) :
    gen.order = order.toList.map Char.toLower := by
  unfold init at h
  rw [require_bind_eq_ok] at h
  dsimp only at h
  rw [completeOrder_of_named hall] at h
  obtain ⟨_, ⟨⟩, h⟩ := bind_eq_ok.mp h.2
  obtain ⟨orderedSize, -, ⟨⟩⟩ := bind_eq_ok.mp h
  rfl

end Orders

/-! ## The grid of a generator -/

namespace RankGenerator

variable {gen : RankGenerator}

/-- Every axis that is used is named once. -/
def AxesOnce (gen : RankGenerator) : Prop := ∀ a, 1 < gen.size a → gen.tokens.count a = 1

instance (gen : RankGenerator) : Decidable gen.AxesOnce :=
  inferInstanceAs (Decidable (∀ a, 1 < gen.size a → gen.tokens.count a = 1))

/-- The order names every axis, and those of more than one rank once. -/
structure Proper (gen : RankGenerator) : Prop where
  pos : ∀ a, 0 < gen.size a
  offset : gen.rankOffset = 0
  order_eq : gen.order.splitOn '-' = gen.tokens.map Axis.name
  orderedSize_eq : gen.orderedSize = gen.tokens.map gen.size
  mem_tokens : ∀ a, a ∈ gen.tokens
  once : ∀ a, gen.tokens.count a = 1 ∨ gen.size a = 1
  worldSize_eq : gen.worldSize = ∏ a, gen.size a

theorem prod_nameToSize (tp ep dp pp cp : ℕ) :
    ∏ a, nameToSize tp ep dp pp cp a = tp * dp * pp * cp * ep := by
  show nameToSize tp ep dp pp cp .tp * (nameToSize tp ep dp pp cp .pp *
    (nameToSize tp ep dp pp cp .dp * (nameToSize tp ep dp pp cp .ep *
      (nameToSize tp ep dp pp cp .cp * 1)))) = _
  simp only [nameToSize]
  ring

theorem proper_of_init {tp ep dp pp cp : ℕ} {order : String}
    (h : init tp ep dp pp cp order 0 = .ok gen)
    (htp : 0 < tp) (hep : 0 < ep) (hdp : 0 < dp) (hpp : 0 < pp) (hcp : 0 < cp)
    (honce : gen.AxesOnce) : gen.Proper := by
  obtain ⟨hsize, hoff, hworld, horder, hsizes, hmem⟩ := init_spec h
  have hpos : ∀ a, 0 < gen.size a := by
    rw [hsize]
    intro a
    cases a <;> assumption
  refine ⟨hpos, hoff, horder, hsizes, hmem, fun a => ?_, ?_⟩
  · by_cases ha : 1 < gen.size a
    · exact .inl (honce a ha)
    · exact .inr (le_antisymm (not_lt.mp ha) (hpos a))
  · rw [hworld, hsize, prod_nameToSize]

variable (h : gen.Proper)

def Proper.grid : Grid Axis := ⟨gen.tokens, gen.size, h.pos, h.mem_tokens, h.once⟩

theorem Proper.card_grid : h.grid.card = gen.worldSize := h.grid.card_eq.trans h.worldSize_eq.symm

theorem idxOf_map_name (a : Axis) (l : List Axis) : (l.map Axis.name).idxOf a.name = l.idxOf a := by
  induction l with
  | nil => rfl
  | cons b l ih =>
    rw [map_cons, idxOf_cons, idxOf_cons, ih]
    have hname : (b.name == a.name) = (b == a) := by cases a <;> cases b <;> rfl
    rw [hname]

theorem getMask_eq {want : List Axis} {token : List Char}
    (ht : token.splitOn '-' = want.map Axis.name) :
    getMask gen.order token = .ok (h.grid.mask want) := by
  unfold getMask Grid.mask
  dsimp only
  rw [h.order_eq, ht, length_map]
  show _ = Except.ok (foldl (fun m a => m.set (gen.tokens.idxOf a) true)
    (replicate gen.tokens.length false) want)
  generalize replicate gen.tokens.length false = m
  clear ht
  induction want generalizing m with
  | nil => rfl
  | cons a want ih =>
    rw [map_cons, foldlM_cons, require_bind (mem_map_of_mem (h.mem_tokens a)), idxOf_map_name]
    exact ih _

theorem getRanks_eq (want : List Axis) {token : String}
    (ht : token.toList.splitOn '-' = want.map Axis.name) :
    gen.getRanks token = .ok (h.grid.groups want) := by
  unfold getRanks
  rw [getMask_eq h ht]
  rw [← h.card_grid, h.orderedSize_eq]
  show (generateMaskedOrthogonalRankGroups h.grid.shape.prod h.grid.shape (h.grid.mask want) >>=
    _) = _
  rw [generateMaskedOrthogonalRankGroups_eq h.grid.shape_pos h.grid.length_mask, h.offset,
    h.grid.groups_eq_fibers]
  rfl

end RankGenerator

end MegatronDPU.Parallel
