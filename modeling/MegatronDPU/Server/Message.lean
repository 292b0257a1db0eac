import Mathlib.Tactic

/-!
# Messages of the BytePS server

The data the server exchanges with its workers and with its engine threads: request metadata,
key-value payloads, command codes, and the messages a handler queues for an engine.

A payload is typed by what its sender put into it: cells of a tensor, the `int` of a group
registration, or the text of compressor arguments. The cells of a tensor are the elements of its
data type, so a length counts elements; a payload read at another type has no meaning here.
-/

namespace MegatronDPU.Server

/-- `ps::Key`, a `uint64_t`. -/
abbrev Key := UInt64

/-- `RequestType`. A code outside the enumeration is kept as it is. -/
inductive RequestType
  | kDefaultPushPull
  | kRowSparsePushPull
  | kCompressedPushPull
  | kGroupRegister
  | unnamed (x : ℕ)
  deriving DecidableEq, Repr

/-- `static_cast<RequestType>`. -/
def RequestType.ofNat : ℕ → RequestType
  | 0 => .kDefaultPushPull
  | 1 => .kRowSparsePushPull
  | 2 => .kCompressedPushPull
  | 3 => .kGroupRegister
  | x => .unnamed x

/-- `static_cast<int>` of a request type. -/
def RequestType.toNat : RequestType → ℕ
  | .kDefaultPushPull => 0
  | .kRowSparsePushPull => 1
  | .kCompressedPushPull => 2
  | .kGroupRegister => 3
  | .unnamed x => x

/-- `BytePSEngineOperation`. -/
inductive EngineOp
  | sumRecv
  | copyFirst
  | allRecv
  | terminate
  deriving DecidableEq, Repr

structure DataHandleType where
  requestType : RequestType
  dtype : ℕ
  deriving DecidableEq, Repr

/-! ## Command codes -/

/-- `GetCommandType`: the Cantor pairing of the request type and the data type. -/
def getCommandType (requestType : RequestType) (d : ℕ) : ℕ :=
  (requestType.toNat + d) * (requestType.toNat + d + 1) / 2 + d

/-- `DepairDataHandleType`: the inverse pairing, with its two `CHECK_GE`. -/
def depairDataHandleType (cmd : ℕ) : Option DataHandleType :=
  let w := (Nat.sqrt (8 * cmd + 1) - 1) / 2
  let t := (w * w + w) / 2
  let y := cmd - t
  if t ≤ cmd ∧ y ≤ w then some ⟨RequestType.ofNat (w - y), y⟩ else none

theorem sqrt_diagonal {s t d : ℕ} (ht : 2 * t = s * s + s) (hd : d ≤ s) :
    (Nat.sqrt (8 * (t + d) + 1) - 1) / 2 = s := by
  have hlo : 2 * s + 1 ≤ Nat.sqrt (8 * (t + d) + 1) := by
    rw [Nat.le_sqrt]
    nlinarith
  have hhi : Nat.sqrt (8 * (t + d) + 1) < 2 * s + 3 := by
    rw [Nat.sqrt_lt]
    nlinarith
  omega

theorem two_mul_diagonal (s : ℕ) : 2 * ((s * s + s) / 2) = s * s + s := by
  have h : s * s + s = s * (s + 1) := by ring
  exact Nat.mul_div_cancel' (h ▸ (Nat.even_mul_succ_self s).two_dvd)

/-- A server reads back the command a worker sends. -/
theorem depair_getCommandType (r : RequestType) (d : ℕ) (hr : RequestType.ofNat r.toNat = r) :
    depairDataHandleType (getCommandType r d) = some ⟨r, d⟩ := by
  have hm : (r.toNat + d) * (r.toNat + d + 1) = (r.toNat + d) * (r.toNat + d) + (r.toNat + d) := by
    ring
  have hw := sqrt_diagonal (two_mul_diagonal (r.toNat + d)) (Nat.le_add_left d r.toNat)
  unfold depairDataHandleType getCommandType
  simp only [hm, hw, Nat.le_add_right, Nat.add_sub_cancel_left, Nat.le_add_left, and_self,
    if_true, Nat.add_sub_cancel, hr]

/-- `GetCommandType` in `int` arithmetic; `none` if the product overflows. -/
def getCommandInt (requestType : RequestType) (d : ℕ) : Option ℕ :=
  if (requestType.toNat + d) * (requestType.toNat + d + 1) < 2 ^ 31 then
    some (getCommandType requestType d)
  else none

/-- `DepairDataHandleType` in `int` arithmetic; `none` also if `8 * cmd + 1` overflows. A root of an
`int` is further below the next integer than a rounding reaches. -/
def depairInt (cmd : ℕ) : Option DataHandleType :=
  if 8 * cmd + 1 < 2 ^ 31 then depairDataHandleType cmd else none

theorem eq_of_getCommandType_eq {r r' : RequestType} {d d' : ℕ}
    (hr : RequestType.ofNat r.toNat = r) (hr' : RequestType.ofNat r'.toNat = r')
    (h : getCommandType r' d' = getCommandType r d) : r' = r ∧ d' = d := by
  have hpair := depair_getCommandType r' d' hr'
  rw [h, depair_getCommandType r d hr] at hpair
  simpa [eq_comm] using hpair

/-- A command whose pairing does not overflow comes from one pair only. It is read back as this pair
iff it is below `2 ^ 28`; for other commands the multiplication by 8 overflows. -/
theorem depairInt_getCommandInt_iff (r : RequestType) (d cmd : ℕ)
    (hr : RequestType.ofNat r.toNat = r) (hcmd : getCommandInt r d = some cmd) :
    (depairInt cmd = some ⟨r, d⟩ ↔ cmd < 2 ^ 28) ∧
      ∀ r' d', RequestType.ofNat r'.toNat = r' → getCommandInt r' d' = some cmd →
        r' = r ∧ d' = d := by
  have pairing : ∀ {r d}, getCommandInt r d = some cmd → getCommandType r d = cmd := by
    intro r d h
    unfold getCommandInt at h
    split_ifs at h
    exact Option.some.inj h
  obtain rfl := pairing hcmd
  refine ⟨?_, fun r' d' hr' h => eq_of_getCommandType_eq hr hr' (pairing h)⟩
  unfold depairInt
  split_ifs with hfit
  · simp only [depair_getCommandType r d hr, true_iff]
    omega
  · simp only [false_iff]
    omega

theorem depairInt_float16 : depairInt 5 = some ⟨.kDefaultPushPull, 2⟩ :=
  (depairInt_getCommandInt_iff .kDefaultPushPull 2 5 rfl (by decide)).1.mpr (by decide)

theorem depairInt_overflows :
    getCommandInt .kDefaultPushPull 30000 = some 450045000 ∧ depairInt 450045000 = none := by
  decide

/-! ## Requests and payloads -/

/-- `ps::KVMeta`, as far as the server reads it or answers with it. -/
structure KVMeta where
  cmd : ℕ
  push : Bool
  sender : ℕ
  timestamp : ℕ
  deriving DecidableEq, Repr

/-- `sizeof(int)`. -/
def sizeofInt : ℕ := 4

/-- `BYTEPS_INT32`. -/
def bytepsInt32 : ℕ := 4

/-- The values of a message, typed by what the sender put into them. -/
inductive Vals (α : Type)
  | cells (xs : List α)
  | int (v : ℤ)
  | text (s : List Char)
  deriving DecidableEq

/-- `vals.size()`. -/
def Vals.size {α : Type} : Vals α → ℕ
  | .cells xs => xs.length
  | .int _ => sizeofInt
  | .text s => s.length

/-- `ps::KVPairs<char>`. -/
structure KVPairs (α : Type) where
  keys : List Key := []
  vals : Vals α := .cells []
  lens : List ℕ := []
  deriving DecidableEq

/-- An answer handed to `server->Response`. -/
structure Response (α : Type) where
  reqMeta : KVMeta
  kvs : KVPairs α
  deriving DecidableEq

/-! ## Engine messages -/

/-- A `char*` of the server: null, the store buffer of the message's key, or another buffer. -/
inductive Pointer (α : Type)
  | null
  | store
  | buffer (data : List α)
  deriving DecidableEq

def Pointer.isNull {α : Type} : Pointer α → Bool
  | .null => true
  | _ => false

/-- `BytePSEngineMessage`. The state pointer is the state of `key`. -/
structure EngineMessage (α : Type) where
  id : ℕ
  type : DataHandleType
  key : Key
  dst : Pointer α
  src : Pointer α
  len : ℕ
  ops : EngineOp
  sarray : KVPairs α
  reqMeta : Option KVMeta
  deriving DecidableEq

end MegatronDPU.Server
