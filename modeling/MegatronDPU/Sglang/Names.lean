import MegatronDPU.Lib.Separator
import MegatronDPU.Sglang.ParallelState

/-!
# Names of SGLang's BytePS tensors

An all-reduce goes to the server under a name that is made of the unique name of the group, a
fingerprint of its ranks, a logical name and the shape of the tensor. Names can be read back
(`bytepsName_inj`): the unique name and the fingerprint have no dot, and the shape, which comes
last, has none either. The type of the elements is not in the name: `equal_names_iff`.
-/

namespace MegatronDPU.Sglang

open Raise Separator GroupCoordinator

/-! ## `byteps_allreduce_inplace` -/

/-- `hashlib.sha1(...).hexdigest()`: hexadecimal digits. -/
structure Sha1 where
  hexdigest : String → String
  hex : ∀ text, ∀ ch ∈ (hexdigest text).toList, ch ∈ "0123456789abcdef".toList

/-- `torch.dtype`, as it is printed. -/
structure TorchDtype where
  name : String
  itemsize : ℕ
  deriving DecidableEq

/-- What the names and the lengths read of a `torch.Tensor`. -/
structure Tensor where
  dtype : TorchDtype
  shape : List ℕ
  deriving DecidableEq

/-- The bytes of a tensor. -/
def Tensor.nbytes (t : Tensor) : ℕ := t.shape.prod * t.dtype.itemsize

/-- An all-reduce: a group, a tensor and maybe a logical name. -/
structure Call where
  group : GroupCoordinator
  input : Tensor
  logicalName : Option String := none

/-- `_byteps_logical_name`. -/
def bytepsLogicalName (input : Tensor) (logicalName : Option String) : String :=
  match logicalName with
  | some name => if name ≠ "" then name else
      "generic." ++ input.dtype.name ++ "." ++ join "x" input.shape
  | none => "generic." ++ input.dtype.name ++ "." ++ join "x" input.shape

/-- `_group_fingerprint`. -/
def groupFingerprint (sha : Sha1) (ranks : List ℕ) : String :=
  String.ofList ((sha.hexdigest (join "," ranks)).toList.take 12)

/-- `build_byteps_group_name`. -/
def buildGroupName (sha : Sha1) (group : GroupCoordinator) (logicalName : String) :
    Except PyError String := do
  require (logicalName ≠ "") (.valueError "logical_name must be a stable non-empty string")
  return "sglang." ++ (group.uniqueName ++ ("." ++ ("r" ++ groupFingerprint sha group.ranks ++
    ("." ++ logicalName))))

/-- The name under which `byteps_allreduce_inplace` declares and pushes a tensor. -/
def bytepsName (sha : Sha1) (group : GroupCoordinator) (logicalName : String) (tensor : Tensor) :
    Except PyError String :=
  buildGroupName sha group (logicalName ++ ("." ++ join "x" tensor.shape))

/-- The logical name of a call. -/
def Call.logical (c : Call) : String := bytepsLogicalName c.input c.logicalName

/-- The name of a call at the server. -/
def Call.name (sha : Sha1) (c : Call) : Except PyError String :=
  bytepsName sha c.group c.logical c.input

/-! ## Unique names -/

/-- The names that `initialize_model_parallel` gives to groups, and the default. -/
def groupNames : List String :=
  ["anonymous", "world", "tp", "pdmux_prefill_tp", "attn_cp", "attention_tp", "moe_dp", "moe_ep",
    "moe_tp", "pp"]

/-- The unique name of a group is one of the names and a number. -/
def GroupCoordinator.Named (g : GroupCoordinator) : Prop :=
  ∃ name ∈ groupNames, ∃ n : ℕ, g.uniqueName = name ++ ":" ++ toString n

variable {worldSize rank : ℕ} {a : ModelParallelSizes} {g g' tp : GroupCoordinator}
  {c c' : Dict String ℕ} {groupName : String} {groupRanks : List (List ℕ)} {sha : Sha1}

theorem GroupCoordinator.named_of_init (hname : groupName ∈ groupNames)
    (h : ∃ c c', init worldSize rank groupRanks groupName c = .ok (g, c')) :
    g.Named := by
  obtain ⟨_, _, h⟩ := h
  obtain ⟨-, h⟩ := require_bind_eq_ok.mp h
  cases hlast : (groupRanks.filter (rank ∈ ·)).getLast? with
  | none => rw [hlast] at h; cases h
  | some ranks =>
    rw [hlast] at h
    cases h
    exact ⟨groupName, hname, _, rfl⟩

theorem named_subGroup {size tpSize : ℕ} (htp : tp.Named) (hname : groupName ∈ groupNames)
    (h : ∃ c c', subGroup worldSize rank size tpSize tp groupRanks groupName c = .ok (g, c')) :
    g.Named := by
  obtain ⟨_, _, h⟩ := h
  unfold subGroup at h
  split_ifs at h
  · cases h
    exact htp
  · exact named_of_init hname ⟨_, _, h⟩

/-- Every group that the initialisation makes is named. -/
theorem named_of_groups {s : ParallelState}
    (h : initializeModelParallel worldSize rank a = .ok s) : ∀ g ∈ s.groups, g.Named := by
  have hs := initSteps_of_ok h
  have htp := named_of_init (by decide) hs.tp
  intro g hg
  simp only [ParallelState.groups, List.mem_append, List.mem_cons, List.not_mem_nil, or_false,
    Option.mem_toList] at hg
  rcases hg with ((rfl | rfl) | hg) | rfl | rfl | rfl | rfl | rfl | rfl
  · exact named_of_init (by decide) hs.world
  · exact htp
  · exact named_of_init (by decide) (hs.exists_pdmux hg)
  · exact named_subGroup htp (by decide) hs.attnCp
  · exact named_subGroup htp (by decide) hs.attnTp
  · exact named_subGroup htp (by decide) hs.moeDp
  · exact named_subGroup htp (by decide) hs.moeEp
  · exact named_subGroup htp (by decide) hs.moeTp
  · exact named_of_init (by decide) hs.pp

/-! ## Reading names back -/

theorem GroupCoordinator.Named.dot_not_mem (h : g.Named) : '.' ∉ g.uniqueName.toList := by
  obtain ⟨name, hname, n, heq⟩ := h
  have hnames : ∀ name ∈ groupNames, '.' ∉ name.toList := by decide
  rw [heq, String.toList_append, String.toList_append, List.mem_append, List.mem_append]
  rintro ((hdot | hdot) | hdot)
  · exact hnames name hname hdot
  · exact absurd hdot (by decide)
  · exact absurd (isDigit_of_mem_toString hdot) (by decide)

theorem dot_not_mem_fingerprint (ranks : List ℕ) :
    '.' ∉ ("r" ++ groupFingerprint sha ranks).toList := by
  rw [String.toList_append, List.mem_append]
  rintro (hdot | hdot)
  · exact absurd hdot (by decide)
  · simp only [groupFingerprint, String.toList_ofList] at hdot
    exact absurd (sha.hex _ '.' (List.mem_of_mem_take hdot)) (by decide)

theorem dot_not_mem_shape (shape : List ℕ) : '.' ∉ (join "x" shape).toList := by
  intro hdot
  rcases mem_join hdot with h | h
  · exact absurd h (by decide)
  · exact absurd h (by decide)

theorem bytepsName_eq (g : GroupCoordinator) (l : String) (t : Tensor) :
    bytepsName sha g l t = .ok ("sglang." ++ (g.uniqueName ++ ("." ++ ("r" ++
      groupFingerprint sha g.ranks ++ ("." ++ (l ++ ("." ++ join "x" t.shape))))))) := by
  unfold bytepsName buildGroupName
  rw [require_bind]
  · rfl
  · intro h
    have hlist := congrArg String.toList h
    simp at hlist

/-- Equal names come from one group, one logical name and one shape. -/
theorem bytepsName_inj (hg : g.Named) (hg' : g'.Named)
    (hfp : groupFingerprint sha g.ranks = groupFingerprint sha g'.ranks → g.ranks = g'.ranks)
    {l l' : String} {t t' : Tensor} :
    bytepsName sha g l t = bytepsName sha g' l' t' ↔ g = g' ∧ l = l' ∧ t.shape = t'.shape := by
  have hdot : ".".toList = ['.'] := by decide
  rw [bytepsName_eq, bytepsName_eq, Except.ok.injEq, String.append_right_inj,
    append_sep_inj hdot hg.dot_not_mem hg'.dot_not_mem,
    append_sep_inj hdot (dot_not_mem_fingerprint _) (dot_not_mem_fingerprint _),
    append_sep_inj_right hdot (dot_not_mem_shape _) (dot_not_mem_shape _),
    join_inj (by decide) (by decide), String.append_right_inj]
  obtain ⟨u, r⟩ := g
  obtain ⟨u', r'⟩ := g'
  constructor
  · rintro ⟨rfl, hr, rest⟩
    cases hfp hr
    exact ⟨rfl, rest⟩
  · rintro ⟨⟨⟩, rest⟩
    exact ⟨rfl, rfl, rest⟩

/-- The elements of the tensors have the same size, or there are none, in two calls for one group,
logical name and shape. -/
def SameWidth (x y : Call) : Prop :=
  x.group = y.group → x.logical = y.logical → x.input.shape = y.input.shape →
    x.input.dtype.itemsize = y.input.dtype.itemsize ∨ 0 ∈ x.input.shape

theorem nbytes_eq_iff {t t' : Tensor} (h : t.shape = t'.shape) :
    t.nbytes = t'.nbytes ↔ t.dtype.itemsize = t'.dtype.itemsize ∨ 0 ∈ t.shape := by
  unfold Tensor.nbytes
  rw [← h, mul_eq_mul_left_iff, List.prod_eq_zero_iff]

/-- For any two all-reduce calls on groups of SGLang, with a fingerprint that tells their ranks
apart: equal BytePS names mean equal groups, logical names, shapes and byte lengths, iff the calls
do not share group, logical name and shape with elements of different sizes. -/
theorem equal_names_iff {x y : Call} (hx : x.group.Named) (hy : y.group.Named)
    (hfp : groupFingerprint sha x.group.ranks = groupFingerprint sha y.group.ranks →
      x.group.ranks = y.group.ranks) :
    (x.name sha = y.name sha → x.group = y.group ∧ x.logical = y.logical ∧
      x.input.shape = y.input.shape ∧ x.input.nbytes = y.input.nbytes) ↔ SameWidth x y := by
  unfold Call.name
  rw [bytepsName_inj hx hy hfp]
  constructor
  · intro h hgroup hlogical hshape
    exact (nbytes_eq_iff hshape).mp (h ⟨hgroup, hlogical, hshape⟩).2.2.2
  · rintro h ⟨hgroup, hlogical, hshape⟩
    exact ⟨hgroup, hlogical, hshape, (nbytes_eq_iff hshape).mpr (h hgroup hlogical hshape)⟩

/-- SHA-1 on the ranks of a group of two; no other text is looked up below. -/
def sha1OfPair : Sha1 where
  hexdigest text := if text = "0,1" then "fa5836450376bf4bf59242bb012665dd3149decb" else ""
  hex text := by
    split_ifs
    · have hall : "fa5836450376bf4bf59242bb012665dd3149decb".toList.all
          ("0123456789abcdef".toList.elem ·) = true := by decide
      exact fun ch hch => List.elem_iff.mp (List.all_eq_true.mp hall ch hch)
    · simp

/-- A call of a layer on the tensor parallel group of two ranks. -/
def layerCall (dtype : TorchDtype) (logicalName : Option String) : Call :=
  ⟨⟨"tp:0", [0, 1]⟩, ⟨dtype, [2, 3]⟩, logicalName⟩

theorem equal_names_iff_same_width :
    (layerCall ⟨"torch.float32", 4⟩ (some "x.1")).name sha1OfPair =
        (layerCall ⟨"torch.int32", 4⟩ (some "x.1")).name sha1OfPair ∧
      (layerCall ⟨"torch.float32", 4⟩ (some "x.1")).input.nbytes =
        (layerCall ⟨"torch.int32", 4⟩ (some "x.1")).input.nbytes := by
  -- the group is one of those that the initialisation of two ranks leaves
  have hinit : ∃ s, initializeModelParallel 2 0 ⟨2, 1, 1, 1, 1, 1, false⟩ = .ok s ∧
      s.tp = ⟨"tp:0", [0, 1]⟩ := ⟨_, rfl, rfl⟩
  have hnamed : ∀ dtype logicalName, (layerCall dtype logicalName).group.Named := by
    intro dtype logicalName
    obtain ⟨s, hs, htp⟩ := hinit
    exact named_of_groups hs _ (by simp [ParallelState.groups, layerCall, htp])
  have hiff := equal_names_iff (hnamed ⟨"torch.float32", 4⟩ (some "x.1"))
    (hnamed ⟨"torch.int32", 4⟩ (some "x.1")) fun (_ : groupFingerprint sha1OfPair _ = _) => rfl
  exact ⟨rfl, (hiff.mpr (fun _ _ _ => .inl rfl) rfl).2.2.2⟩

/-- A layer that is run in two precisions has one name for `24` and for `12` bytes. -/
theorem precisions_share_name :
    (layerCall ⟨"torch.float32", 4⟩ (some "model.layers.0.mlp.down_proj")).name sha1OfPair =
        (layerCall ⟨"torch.bfloat16", 2⟩ (some "model.layers.0.mlp.down_proj")).name sha1OfPair ∧
      (layerCall ⟨"torch.float32", 4⟩ none).input.nbytes = 24 ∧
      (layerCall ⟨"torch.bfloat16", 2⟩ none).input.nbytes = 12 := by
  exact ⟨rfl, rfl, rfl⟩

end MegatronDPU.Sglang
