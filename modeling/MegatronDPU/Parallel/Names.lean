import MegatronDPU.Lib.Decimal
import MegatronDPU.Lib.Dict
import MegatronDPU.Lib.Raise

/-!
# Names of BytePS tensors

Processes that reduce a tensor together have to declare it under one name. The name is made of the
ranks of the process in its groups and a logical name. It can be read back: `dp_name_inj`,
`tp_name_inj`, `dp_name_ne_tp_name`.
-/

namespace MegatronDPU.Parallel

open Raise Decimal

/-- What the getters of `parallel_state` return in a process: its ranks in its groups. -/
structure RankGetters where
  tensorModelParallelRank : Except PyError ℕ
  pipelineModelParallelRank : Except PyError ℕ
  dataParallelRank : Except PyError ℕ
  contextParallelRank : Except PyError ℕ

/-- The scopes of a name. -/
inductive Scope
  | dp
  | tp
  | other (name : String)
  deriving DecidableEq

/-- `build_byteps_group_name`. -/
def buildBytepsGroupName (c : RankGetters) (scope : Scope) (logicalName : String) :
    Except PyError String := do
  require (logicalName ≠ "") (.valueError "logical_name must be a stable non-empty string")
  let ppRank ← c.pipelineModelParallelRank
  match scope with
  | .dp =>
    let tpRank ← c.tensorModelParallelRank
    return "dp.tp" ++ (toString tpRank ++ (".pp" ++ (toString ppRank ++ ("." ++ logicalName))))
  | .tp =>
    let dpRank ← c.dataParallelRank
    let cpRank ← c.contextParallelRank
    return "tp.dp" ++ (toString dpRank ++ (".pp" ++ (toString ppRank ++
      (".cp" ++ (toString cpRank ++ ("." ++ logicalName))))))
  | .other name => .error (.valueError ("Unsupported BytePS scope: " ++ name))

/-- `declare_and_cache_byteps_group`; the cache is `_DECLARED_BPS_GROUPS`. -/
def declareAndCacheBytepsGroup (cache : Dict String ℕ) (name : String) (expectedWorkers : ℕ) :
    Except PyError (Dict String ℕ) :=
  match cache.get? name with
  | none => .ok (cache.set name expectedWorkers)
  | some cachedWorkers => do
    require (cachedWorkers = expectedWorkers) (.runtimeError ("BytePS tensor name " ++ name ++
      " was declared with inconsistent group size: " ++ toString cachedWorkers ++ " vs " ++
      toString expectedWorkers))
    return cache

/-- `_declare_group_and_get_name`; of the group only the size is used. -/
def declareGroupAndGetName (c : RankGetters) (cache : Dict String ℕ) (group : Option ℕ) (scope : Scope)
    (logicalName : String) : Except PyError (String × Dict String ℕ) := do
  let some expectedWorkers := group | .error (.valueError "group must not be None")
  let name ← buildBytepsGroupName c scope logicalName
  let cache ← declareAndCacheBytepsGroup cache name expectedWorkers
  return (name, cache)

/-! ## Reading names back -/

variable {c c' : RankGetters} {l l' name name' : String}

theorem dp_name_eq_ok_iff :
    buildBytepsGroupName c .dp l = .ok name ↔ l ≠ "" ∧
      ∃ pp, c.pipelineModelParallelRank = .ok pp ∧ ∃ tp, c.tensorModelParallelRank = .ok tp ∧
        "dp.tp" ++ (toString tp ++ (".pp" ++ (toString pp ++ ("." ++ l)))) = name := by
  rw [buildBytepsGroupName, require_bind_eq_ok]
  simp only [bind_eq_ok, pure, Except.pure, Except.ok.injEq]

theorem tp_name_eq_ok_iff :
    buildBytepsGroupName c .tp l = .ok name ↔ l ≠ "" ∧
      ∃ pp, c.pipelineModelParallelRank = .ok pp ∧ ∃ dp, c.dataParallelRank = .ok dp ∧
        ∃ cp, c.contextParallelRank = .ok cp ∧
          "tp.dp" ++ (toString dp ++ (".pp" ++ (toString pp ++
            (".cp" ++ (toString cp ++ ("." ++ l)))))) = name := by
  rw [buildBytepsGroupName, require_bind_eq_ok]
  simp only [bind_eq_ok, pure, Except.pure, Except.ok.injEq]

theorem dp_name_inj (h : buildBytepsGroupName c .dp l = .ok name)
    (h' : buildBytepsGroupName c' .dp l' = .ok name') :
    name = name' ↔ c.tensorModelParallelRank = c'.tensorModelParallelRank ∧
      c.pipelineModelParallelRank = c'.pipelineModelParallelRank ∧ l = l' := by
  obtain ⟨-, pp, hpp, tp, htp, rfl⟩ := dp_name_eq_ok_iff.mp h
  obtain ⟨-, pp', hpp', tp', htp', rfl⟩ := dp_name_eq_ok_iff.mp h'
  rw [hpp, hpp', htp, htp', Except.ok.injEq, Except.ok.injEq, String.append_right_inj,
    toString_sep_inj (by decide), toString_sep_inj (by decide)]

theorem tp_name_inj (h : buildBytepsGroupName c .tp l = .ok name)
    (h' : buildBytepsGroupName c' .tp l' = .ok name') :
    name = name' ↔ c.dataParallelRank = c'.dataParallelRank ∧
      c.pipelineModelParallelRank = c'.pipelineModelParallelRank ∧
      c.contextParallelRank = c'.contextParallelRank ∧ l = l' := by
  obtain ⟨-, pp, hpp, dp, hdp, cp, hcp, rfl⟩ := tp_name_eq_ok_iff.mp h
  obtain ⟨-, pp', hpp', dp', hdp', cp', hcp', rfl⟩ := tp_name_eq_ok_iff.mp h'
  rw [hpp, hpp', hdp, hdp', hcp, hcp', Except.ok.injEq, Except.ok.injEq, Except.ok.injEq,
    String.append_right_inj, toString_sep_inj (by decide), toString_sep_inj (by decide),
    toString_sep_inj (by decide)]

theorem dp_name_ne_tp_name (h : buildBytepsGroupName c .dp l = .ok name)
    (h' : buildBytepsGroupName c' .tp l' = .ok name') : name ≠ name' := by
  obtain ⟨-, pp, -, tp, -, rfl⟩ := dp_name_eq_ok_iff.mp h
  obtain ⟨-, pp', -, dp', -, cp', -, rfl⟩ := tp_name_eq_ok_iff.mp h'
  intro heq
  have hlist := congrArg (fun s => s.toList.head?) heq
  simp at hlist

end MegatronDPU.Parallel
