import MegatronDPU.Lib.Transition

/-!
# Pushes over the RDMA van

The first push of a key makes a rendezvous: the server allocates a buffer, and the van keeps its
address together with the memory region that the data came from. A later push that is not longer
writes into the same buffer, and reads from the region that was kept (`sendMsg_cases`).
-/

namespace MegatronDPU.Van

open Lts List Option Function

structure SArray where
  addr : ℕ
  size : ℕ

/-- A push request: the key and the receiver, the length of the packed meta data, and the data. -/
structure Message where
  key : ℕ
  recver : ℕ
  metaLen : ℕ
  keys : SArray
  vals : SArray
  lens : SArray

abbrev Memory := ℕ → UInt8

def Memory.read (mem : Memory) (addr len : ℕ) : List UInt8 :=
  (List.range len).map fun i => mem (addr + i)

def Message.payload (msg : Message) (mem : Memory) : List UInt8 :=
  mem.read msg.vals.addr msg.vals.size

/-- A registered region: `ibv_mr`. -/
structure Mr where
  addr : ℕ
  length : ℕ

structure MessageBuffer where
  inlineLen : ℕ
  mrs : List (Mr × ℕ)

/-- What the van keeps of a rendezvous: the size of the server's buffer and the local message
buffer. -/
structure Remote where
  region : ℕ
  msgBuf : MessageBuffer

/-- `mem_mr_` and `push_addr_`. -/
structure State where
  memMr : ℕ → Option Mr
  pushAddr : ℕ × ℕ → Option Remote

/-- The data that one push writes, and where it goes in the server's buffer. -/
structure Write where
  bytes : List UInt8
  offset : ℕ
  region : ℕ

section Send

variable (pagesize : ℕ)

def alignFloor (v align : ℕ) : ℕ := v - v % align

def alignCeil (v align : ℕ) : ℕ := alignFloor (v + align - 1) align

/-- One turn of the loop of `RegisterMemory`: empty spans are not counted, and the second one that
is not empty is registered, unless there is a region at its address. -/
def registerSpan (acc : (ℕ → Option Mr) × ℕ) (sa : SArray) : (ℕ → Option Mr) × ℕ :=
  if sa.size = 0 then acc
  else if (acc.1 sa.addr).isNone ∧ acc.2 = 1 then
    (update acc.1 sa.addr (some ⟨sa.addr, sa.size⟩), acc.2 + 1)
  else (acc.1, acc.2 + 1)

def registerMemory (s : State) (msg : Message) : State :=
  { s with memMr := ([msg.keys, msg.vals, msg.lens].foldl registerSpan (s.memMr, 0)).1 }

def registerPull (s : State) (addr valLen : ℕ) : State :=
  if (s.memMr addr).isNone then
    { s with memMr := update s.memMr addr (some ⟨addr, valLen⟩) }
  else s

def hasRemoteInfo (s : State) (msg : Message) : Bool × State :=
  match s.pushAddr (msg.key, msg.recver) with
  | none => (false, s)
  | some remote =>
    match remote.msgBuf.mrs.head? with
    | some (_, cachedSize) =>
      if cachedSize < msg.vals.size then
        (false, { s with pushAddr := update s.pushAddr (msg.key, msg.recver) none })
      else (true, s)
    | none => (true, s)

def prepareData (s : State) (msg : Message) : Option (List (Mr × ℕ)) :=
  if msg.vals.size = 0 then some []
  else (s.memMr msg.vals.addr).map fun mr => [(mr, msg.vals.size)]

/-- The checks and the data write of `SendPushRequest`. A write that reads beyond its region
completes with an error, and `PollCQ` aborts. -/
def sendPushRequest (mem : Memory) (msg : Message) (remote : Remote) : Option Write :=
  match remote.msgBuf.mrs with
  | [(mr, size)] =>
    if msg.vals.size ≤ size ∧ msg.vals.size ≤ mr.length then
      some { bytes := mem.read mr.addr msg.vals.size
             offset := alignCeil remote.msgBuf.inlineLen pagesize
             region := remote.region }
    else none
  | _ => none

/-- What the server allocates in `SendRendezvousReply`. -/
def allocated (msg : Message) : ℕ :=
  alignCeil msg.metaLen pagesize + (msg.keys.size + msg.vals.size + msg.lens.size)

/-- `SendMsg` for a push request, with the reply of the rendezvous if there is one; `none` is a
failed check. -/
def sendMsg (s : State) (mem : Memory) (msg : Message) : Option (State × Write) :=
  match hasRemoteInfo (registerMemory s msg) msg with
  | (false, s) => do
    let mrs ← prepareData s msg
    let remote : Remote := ⟨allocated pagesize msg, ⟨msg.metaLen, mrs⟩⟩
    let write ← sendPushRequest pagesize mem msg remote
    return ({ s with pushAddr := update s.pushAddr (msg.key, msg.recver) (some remote) },
      write)
  | (true, s) => do
    let remote ← s.pushAddr (msg.key, msg.recver)
    if remote.msgBuf.inlineLen = msg.metaLen then
      let write ← sendPushRequest pagesize mem msg remote
      return (s, write)
    else none

/-! ## Runs -/

/-- What a process asks of the van: a push, with the memory at that time, or a pull. -/
inductive Op
  | push (mem : Memory) (msg : Message)
  | pull (addr valLen : ℕ)

structure Sent where
  payload : List UInt8
  write : Write

structure Worker where
  van : State
  sent : List Sent

def Worker.step (w : Worker) : Op → Option Worker
  | .push mem msg => do
    let (van, write) ← sendMsg pagesize w.van mem msg
    return ⟨van, ⟨msg.payload mem, write⟩ :: w.sent⟩
  | .pull addr valLen => some { w with van := registerPull w.van addr valLen }

def Worker.start : Worker := ⟨⟨fun _ => none, fun _ => none⟩, []⟩

def workers : System Worker Op where
  init w := w = Worker.start
  step w := w.step pagesize

end Send

/-- A push that reuses an entry comes from the address of the entry's region. -/
def SameSource (s : State) (msg : Message) : Prop :=
  ∀ remote, s.pushAddr (msg.key, msg.recver) = some remote → ∀ m ∈ remote.msgBuf.mrs,
    0 < msg.vals.size → msg.vals.size ≤ m.2 → msg.vals.addr = m.1.addr

instance (s : State) (msg : Message) : Decidable (SameSource s msg) :=
  inferInstanceAs (Decidable (∀ remote ∈ s.pushAddr (msg.key, msg.recver),
    ∀ m ∈ remote.msgBuf.mrs, 0 < msg.vals.size → msg.vals.size ≤ m.2 → msg.vals.addr = m.1.addr))

def SourcesKept (w : Worker) : Op → Prop
  | .push _ msg => SameSource w.van msg
  | .pull _ _ => True

instance (w : Worker) : ∀ op, Decidable (SourcesKept w op)
  | .push _ msg => inferInstanceAs (Decidable (SameSource w.van msg))
  | .pull _ _ => inferInstanceAs (Decidable True)

/-! ## What a push can do -/

/-- Regions are kept under their address, and entries have one region of which the server's buffer
can take the whole. -/
structure State.Ok (pagesize : ℕ) (s : State) : Prop where
  memMr : ∀ a mr, s.memMr a = some mr → mr.addr = a
  pushAddr : ∀ k remote, s.pushAddr k = some remote → ∃ mr size, remote.msgBuf.mrs = [(mr, size)] ∧
    alignCeil remote.msgBuf.inlineLen pagesize + size ≤ remote.region

section Cases

variable {pagesize : ℕ} {s s' : State} {mem : Memory} {msg : Message} {w : Write}

theorem of_update_eq_some {α β : Type} [DecidableEq α] {f : α → Option β} {a b : α} {v : Option β}
    {c : β} (h : update f a v b = some c) : (b = a ∧ v = some c) ∨ f b = some c := by
  rcases eq_or_ne b a with rfl | hb
  · rw [update_self] at h
    exact .inl ⟨rfl, h⟩
  · rw [update_of_ne hb] at h
    exact .inr h

theorem update_addr {memMr : ℕ → Option Mr} (b n : ℕ)
    (h : ∀ a mr, memMr a = some mr → mr.addr = a) :
    ∀ a mr, update memMr b (some ⟨b, n⟩) a = some mr → mr.addr = a := by
  intro a mr hmr
  rcases of_update_eq_some hmr with ⟨rfl, ⟨⟩⟩ | hmr
  · rfl
  · exact h a mr hmr

theorem registerSpan_addr {acc : (ℕ → Option Mr) × ℕ} (sa : SArray)
    (h : ∀ a mr, acc.1 a = some mr → mr.addr = a) :
    ∀ a mr, (registerSpan acc sa).1 a = some mr → mr.addr = a := by
  unfold registerSpan
  split_ifs
  · exact h
  · exact update_addr sa.addr sa.size h
  · exact h

theorem State.Ok.registerMemory (h : s.Ok pagesize) (msg : Message) :
    (registerMemory s msg).Ok pagesize := by
  refine ⟨?_, h.pushAddr⟩
  have hspan := @registerSpan_addr (s.memMr, 0) msg.keys h.memMr
  exact registerSpan_addr msg.lens (registerSpan_addr msg.vals hspan)

theorem State.Ok.registerPull (h : s.Ok pagesize) (addr valLen : ℕ) :
    (registerPull s addr valLen).Ok pagesize := by
  unfold Van.registerPull
  split_ifs
  · exact ⟨update_addr addr valLen h.memMr, h.pushAddr⟩
  · exact h

theorem sendPushRequest_eq_some {remote : Remote} {mr : Mr} {size : ℕ}
    (hmrs : remote.msgBuf.mrs = [(mr, size)]) :
    sendPushRequest pagesize mem msg remote = some w ↔
      (msg.vals.size ≤ size ∧ msg.vals.size ≤ mr.length) ∧
        w = ⟨mem.read mr.addr msg.vals.size, alignCeil remote.msgBuf.inlineLen pagesize,
          remote.region⟩ := by
  unfold sendPushRequest
  rw [hmrs]
  dsimp only
  split_ifs with hle
  · rw [Option.some.injEq, eq_comm]
    exact (and_iff_right hle).symm
  · exact iff_of_false nofun fun h => hle h.1

theorem hasRemoteInfo_cases (msg : Message) (hs : s.Ok pagesize) :
    (∃ t, hasRemoteInfo s msg = (false, t) ∧ t.memMr = s.memMr ∧
      (∀ k remote, t.pushAddr k = some remote → s.pushAddr k = some remote) ∧
      ∀ remote, s.pushAddr (msg.key, msg.recver) = some remote →
        ∀ m ∈ remote.msgBuf.mrs, m.2 < msg.vals.size) ∨
    hasRemoteInfo s msg = (true, s) ∧ ∃ remote mr size,
      s.pushAddr (msg.key, msg.recver) = some remote ∧ remote.msgBuf.mrs = [(mr, size)] ∧
        msg.vals.size ≤ size := by
  unfold hasRemoteInfo
  cases hremote : s.pushAddr (msg.key, msg.recver) with
  | none => exact .inl ⟨s, rfl, rfl, fun _ _ h => h, nofun⟩
  | some remote =>
    obtain ⟨mr, size, hmrs, -⟩ := hs.pushAddr _ _ hremote
    simp only [hmrs, head?_cons]
    split_ifs with hsize
    · refine .inl ⟨_, rfl, rfl, fun k r hr => ?_, ?_⟩
      · rcases of_update_eq_some hr with ⟨-, ⟨⟩⟩ | hr
        exact hr
      · rintro _ ⟨⟩ m hm
        rw [hmrs, mem_singleton] at hm
        rwa [hm]
    · exact .inr ⟨rfl, remote, mr, size, rfl, hmrs, not_lt.mp hsize⟩

/-- A push makes a rendezvous and writes what is at its own address, or it reuses an entry that is
large enough and writes what is at the address of the entry. -/
theorem sendMsg_cases (hs : s.Ok pagesize) (h : sendMsg pagesize s mem msg = some (s', w)) :
    s'.Ok pagesize ∧
    ((w = ⟨msg.payload mem, alignCeil msg.metaLen pagesize, allocated pagesize msg⟩ ∧
        ∀ remote, s.pushAddr (msg.key, msg.recver) = some remote →
          ∀ m ∈ remote.msgBuf.mrs, m.2 < msg.vals.size) ∨
      ∃ remote mr size, s.pushAddr (msg.key, msg.recver) = some remote ∧
        remote.msgBuf.mrs = [(mr, size)] ∧ msg.vals.size ≤ size ∧
        w = ⟨mem.read mr.addr msg.vals.size, alignCeil remote.msgBuf.inlineLen pagesize,
          remote.region⟩) := by
  have hok := hs.registerMemory msg
  unfold sendMsg at h
  rcases hasRemoteInfo_cases msg hok with ⟨t, ht, hmem, hpush, hfew⟩ | ⟨ht, hreuse⟩
  · rw [ht] at h
    obtain ⟨mrs, hmrs, h⟩ := bind_eq_some_iff.mp h
    obtain ⟨write, hwrite, ⟨⟩⟩ := bind_eq_some_iff.mp h
    unfold prepareData at hmrs
    split_ifs at hmrs with hzero
    · -- without a region the check of `SendPushRequest` fails
      cases hmrs
      cases hwrite
    · obtain ⟨mr, hmr, rfl⟩ := map_eq_some_iff.mp hmrs
      obtain ⟨-, rfl⟩ := (sendPushRequest_eq_some rfl).mp hwrite
      have haddr : mr.addr = msg.vals.addr := hok.memMr _ _ (hmem ▸ hmr)
      refine ⟨⟨fun a m hm => hok.memMr a m (hmem ▸ hm), fun k r hr => ?_⟩, .inl ⟨?_, hfew⟩⟩
      · rcases of_update_eq_some hr with ⟨rfl, ⟨⟩⟩ | hr
        · refine ⟨mr, msg.vals.size, rfl, ?_⟩
          show alignCeil msg.metaLen pagesize + msg.vals.size ≤ allocated pagesize msg
          unfold allocated
          omega
        · exact hok.pushAddr k r (hpush k r hr)
      · rw [haddr]
        rfl
  · rw [ht] at h
    obtain ⟨remote, hremote, h⟩ := bind_eq_some_iff.mp h
    split_ifs at h with hlen
    obtain ⟨write, hwrite, ⟨⟩⟩ := bind_eq_some_iff.mp h
    obtain ⟨remote', mr, size, hremote', hmrs, hsize⟩ := hreuse
    obtain rfl := some.inj (hremote.symm.trans hremote')
    obtain ⟨-, rfl⟩ := (sendPushRequest_eq_some hmrs).mp hwrite
    exact ⟨hok, .inr ⟨remote, mr, size, hremote, hmrs, hsize, rfl⟩⟩

theorem sendMsg_memory (mem' : Memory) (h : sendMsg pagesize s mem msg = some (s', w)) :
    ∃ w', sendMsg pagesize s mem' msg = some (s', w') := by
  have hsend : ∀ {remote : Remote} {w : Write}, sendPushRequest pagesize mem msg remote = some w →
      ∃ w', sendPushRequest pagesize mem' msg remote = some w' := by
    intro remote w hw
    unfold sendPushRequest at hw ⊢
    match hmrs : remote.msgBuf.mrs with
    | [] =>
      rw [hmrs] at hw
      cases hw
    | [(mr, size)] =>
      rw [hmrs] at hw
      dsimp only at hw ⊢
      split_ifs at hw ⊢
      exact ⟨_, rfl⟩
    | _ :: _ :: _ =>
      rw [hmrs] at hw
      cases hw
  unfold sendMsg at h ⊢
  match ht : hasRemoteInfo (registerMemory s msg) msg with
  | (false, t) =>
    rw [ht] at h
    obtain ⟨mrs, hmrs, h⟩ := bind_eq_some_iff.mp h
    obtain ⟨write, hwrite, ⟨⟩⟩ := bind_eq_some_iff.mp h
    obtain ⟨write', hwrite'⟩ := hsend hwrite
    refine ⟨write', ?_⟩
    dsimp only
    rw [hmrs, bind_eq_bind, bind_some, hwrite']
    rfl
  | (true, t) =>
    rw [ht] at h
    obtain ⟨remote, hremote, h⟩ := bind_eq_some_iff.mp h
    split_ifs at h with hlen
    obtain ⟨write, hwrite, ⟨⟩⟩ := bind_eq_some_iff.mp h
    obtain ⟨write', hwrite'⟩ := hsend hwrite
    refine ⟨write', ?_⟩
    dsimp only
    rw [hremote, bind_eq_bind, bind_some, if_pos hlen, hwrite']
    rfl

end Cases

/-! ## What pushes write -/

section Runs

variable {pagesize : ℕ} {s s' : State} {mem : Memory} {msg : Message} {write : Write} {w w' : Worker}

/-- The operations of a van. -/
theorem step_cases {op : Op} (h : w.step pagesize op = some w') :
    (∃ mem msg van write, op = .push mem msg ∧ sendMsg pagesize w.van mem msg = some (van, write) ∧
      w' = ⟨van, ⟨msg.payload mem, write⟩ :: w.sent⟩) ∨
    ∃ addr valLen, op = .pull addr valLen ∧
      w' = { w with van := registerPull w.van addr valLen } := by
  cases op with
  | push mem msg =>
    obtain ⟨⟨van, write⟩, hsend, ⟨⟩⟩ := bind_eq_some_iff.mp h
    exact .inl ⟨mem, msg, van, write, rfl, hsend, rfl⟩
  | pull addr valLen =>
    cases h
    exact .inr ⟨addr, valLen, rfl, rfl⟩

theorem length_read (mem : Memory) (addr len : ℕ) : (mem.read addr len).length = len := by
  unfold Memory.read
  rw [length_map, length_range]

section

variable (hs : s.Ok pagesize) (h : sendMsg pagesize s mem msg = some (s', write))
include hs h

theorem fits_of_sendMsg : write.offset + write.bytes.length ≤ write.region := by
  obtain ⟨-, ⟨rfl, -⟩ | ⟨remote, mr, size, hremote, hmrs, hsize, rfl⟩⟩ := sendMsg_cases hs h
  · show alignCeil msg.metaLen pagesize + (mem.read _ _).length ≤ allocated pagesize msg
    rw [length_read]
    unfold allocated
    omega
  · obtain ⟨mr', size', hmrs', hfits⟩ := hs.pushAddr _ _ hremote
    rw [hmrs] at hmrs'
    obtain ⟨rfl, rfl⟩ := Prod.mk.inj (singleton_inj.mp hmrs')
    show alignCeil remote.msgBuf.inlineLen pagesize + (mem.read _ _).length ≤ remote.region
    rw [length_read]
    omega

theorem bytes_of_sendMsg (hsource : SameSource s msg) : write.bytes = msg.payload mem := by
  obtain ⟨-, ⟨rfl, -⟩ | ⟨remote, mr, size, hremote, hmrs, hsize, rfl⟩⟩ := sendMsg_cases hs h
  · rfl
  · show mem.read mr.addr msg.vals.size = mem.read msg.vals.addr msg.vals.size
    rcases Nat.eq_zero_or_pos msg.vals.size with hzero | hpos
    · rw [hzero]
      rfl
    · rw [hsource remote hremote (mr, size) (hmrs ▸ mem_singleton_self _) hpos hsize]

theorem sameSource_of_bytes
    (hall : ∀ mem' van write', sendMsg pagesize s mem' msg = some (van, write') →
      write'.bytes = msg.payload mem') :
    SameSource s msg := by
  intro remote hremote m hm hpos hle
  by_contra hne
  -- memory that differs at the first byte
  let mem' : Memory := fun a => if a = msg.vals.addr then 1 else 0
  obtain ⟨write', hsend⟩ := sendMsg_memory mem' h
  have hbytes := hall mem' _ _ hsend
  obtain ⟨-, ⟨-, hfew⟩ | ⟨remote', mr, size, hremote', hmrs, -, rfl⟩⟩ := sendMsg_cases hs hsend
  · exact absurd (hfew remote hremote m hm) (not_lt.mpr hle)
  · obtain rfl := some.inj (hremote.symm.trans hremote')
    rw [hmrs, mem_singleton] at hm
    subst hm
    have hhead : (mem'.read mr.addr msg.vals.size)[0]? = (msg.payload mem')[0]? := by rw [← hbytes]
    have hread : ∀ addr, (mem'.read addr msg.vals.size)[0]? = some (mem' addr) := by
      intro addr
      unfold Memory.read
      rw [getElem?_map, getElem?_range hpos]
      rfl
    rw [Message.payload, hread, hread, Option.some.injEq] at hhead
    have hmr : mem' mr.addr = 0 := if_neg (Ne.symm hne)
    have hvals : mem' msg.vals.addr = 1 := if_pos rfl
    rw [hmr, hvals] at hhead
    exact absurd hhead (by decide)

end

theorem ok_of_reach {G : Worker → Op → Prop} (h : Reach (workers pagesize) G w) :
    w.van.Ok pagesize := by
  refine h.invariant (P := fun w => w.van.Ok pagesize) (fun w hw => ?_)
    fun w op w' hok _ hstep => ?_
  · subst hw
    exact ⟨nofun, nofun⟩
  · rcases step_cases hstep with ⟨mem, msg, van, write, rfl, hsend, rfl⟩ | ⟨addr, n, rfl, rfl⟩
    · exact (sendMsg_cases hok hsend).1
    · exact hok.registerPull addr n

theorem sent_of_reach {G : Worker → Op → Prop} {P : Sent → Prop}
    (hpush : ∀ w mem msg van write, w.van.Ok pagesize → G w (.push mem msg) →
      sendMsg pagesize w.van mem msg = some (van, write) → P ⟨msg.payload mem, write⟩)
    (h : Reach (workers pagesize) G w) : ∀ e ∈ w.sent, P e := by
  induction h with
  | init hw =>
    subst hw
    exact nofun
  | @step w _ op hreach hg hstep ih =>
    rcases step_cases hstep with ⟨mem, msg, van, write, rfl, hsend, rfl⟩ | ⟨addr, n, rfl, rfl⟩
    · exact forall_mem_cons.mpr
        ⟨hpush w mem msg van write (ok_of_reach hreach) hg hsend, ih⟩
    · exact ih

end Runs

/-- A push of `InitTensor` or of a stage for the key 7 to the server 8, from an address. -/
def pushOf (addr len : ℕ) : Message := ⟨7, 8, 100, ⟨1, 8⟩, ⟨addr, len⟩, ⟨2, 4⟩⟩

/-- The number of workers is on the stack at 1000 and the tensor at 5000. -/
def twoTensors : Memory := fun a => if a = 1000 then 2 else if 5000 ≤ a ∧ a < 5008 then 9 else 0

end MegatronDPU.Van
