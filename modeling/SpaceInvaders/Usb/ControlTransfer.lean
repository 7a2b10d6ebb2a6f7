import SpaceInvaders.Usb.Submission

/-!
# The transfer lists are control transfers

What the words of the transfer lists mean. A descriptor is a `Transaction`: the
device and endpoint it addresses, its PID, its data toggle and its buffer. A
control transfer is a setup transaction, a data stage in packets of eight bytes
with alternating toggles, and a status transaction in the opposite direction.
`ControlTransfer.words` lays such a transfer out in memory, for any length of
the data, and `encodes` reads it back by following the descriptors.

The nine lists that `usb.c` writes word by word are instances. `Requests` says
what the memory has to hold when the host submits the list of a job.
-/

namespace SpaceInvaders.Usb

open Machine

/-- The packet identifiers of the lists. -/
inductive Pid where
  | setup
  | dataIn
  | dataOut
deriving Repr, DecidableEq

def Pid.code : Pid → BitVec 4
  | .setup => 0xD#4
  | .dataIn => 0x9#4
  | .dataOut => 0x1#4

def Pid.ofCode (code : BitVec 4) : Option Pid :=
  if code = 0xD#4 then some .setup
  else if code = 0x9#4 then some .dataIn
  else if code = 0x1#4 then some .dataOut
  else none

/-- One transaction on the bus. -/
structure Transaction where
  device : BitVec 8
  pid : Pid
  endpoint : BitVec 4
  /-- `DATA1`. -/
  toggle : Bool
  buffer : BitVec 16
  length : BitVec 16
deriving Repr, DecidableEq

namespace Transaction

/-- Device, PID and endpoint in one word. -/
def token (t : Transaction) : BitVec 16 := t.device ++ (t.pid.code ++ t.endpoint)

def control (t : Transaction) : BitVec 16 := if t.toggle then 0x0041#16 else 0x0001#16

/-- The descriptor of a transaction. -/
def words (t : Transaction) (next : BitVec 16) : List (BitVec 16) :=
  [t.buffer, t.length, t.token, t.control, 0x0013#16, next]

/-- Descriptors one after the other from `a` on, each linked to the next. -/
def chainWords : BitVec 16 → List Transaction → List (BitVec 16)
  | _, [] => []
  | _, [t] => t.words 0#16
  | a, t :: u :: ts => t.words (a + 12#16) ++ chainWords (a + 12#16) (u :: ts)

end Transaction

/-- The transaction of a descriptor, if it is one. -/
def TransferDescriptor.transaction (td : TransferDescriptor) : Option Transaction :=
  if td.retry = 0x0013#16 ∧ (td.control = 0x0041#16 ∨ td.control = 0x0001#16) then
    (Pid.ofCode (td.token.extractLsb' 4 4)).map fun pid =>
      { device := td.token.extractLsb' 8 8
        pid := pid
        endpoint := td.token.extractLsb' 0 4
        toggle := td.control = 0x0041#16
        buffer := td.buffer
        length := td.length }
  else none

/-- A control transfer with the device, or with a data stage to the host. -/
structure ControlTransfer where
  device : BitVec 8
  /-- The four words of the setup packet; the low byte of `request` is the type. -/
  request : BitVec 16
  value : BitVec 16
  index : BitVec 16
  length : BitVec 16
  /-- Where the received bytes go, and how many are fetched. -/
  buffer : BitVec 16
  dataLength : Nat
deriving Repr, DecidableEq

namespace ControlTransfer

def setupStage (t : ControlTransfer) : Transaction where
  device := t.device
  pid := .setup
  endpoint := 0#4
  toggle := false
  buffer := 0x050C#16
  length := 8#16

/-- Packet `i` of the data stage. -/
def packet (t : ControlTransfer) (i : Nat) : Transaction where
  device := t.device
  pid := .dataIn
  endpoint := 0#4
  toggle := i % 2 == 0
  buffer := t.buffer + BitVec.ofNat 16 (8 * i)
  length := BitVec.ofNat 16 (min 8 (t.dataLength - 8 * i))

def dataStage (t : ControlTransfer) : List Transaction :=
  (List.range ((t.dataLength + 7) / 8)).map t.packet

/-- The status stage goes the other way. -/
def statusStage (t : ControlTransfer) : Transaction where
  device := t.device
  pid := if t.dataLength = 0 then .dataIn else .dataOut
  endpoint := 0#4
  toggle := true
  buffer := 0#16
  length := 0#16

def transactions (t : ControlTransfer) : List Transaction :=
  t.setupStage :: (t.dataStage ++ [t.statusStage])

/-- The words of the transfer from `0x0500` on: the setup packet stands between
the first two descriptors. -/
def words (t : ControlTransfer) : List (BitVec 16) :=
  t.setupStage.words 0x0514#16 ++
    ([t.request, t.value, t.index, t.length] ++
      Transaction.chainWords 0x0514#16 (t.dataStage ++ [t.statusStage]))

/-- What a transfer has to keep to. -/
structure Proper (t : ControlTransfer) : Prop where
  /-- No more is fetched than asked for. -/
  fits : t.dataLength ≤ t.length.toNat
  /-- There is a data stage exactly if the request is one to the host. -/
  direction : t.request.getLsbD 7 = true ↔ t.dataLength ≠ 0

end ControlTransfer

/-- The memory holds the transactions in a chain from `p` on. -/
def ChainOf (mem : Memory) (p : BitVec 16) (ts : List Transaction) : Prop :=
  ∃ tds, IsChain (TransferDescriptor.load mem) TransferDescriptor.next 0#16 p tds ∧
    tds.map TransferDescriptor.transaction = ts.map some

/-- Following the descriptors from `0x0500` gives the transactions of the
transfer, and the buffer of the first one holds the setup packet. -/
structure Encodes (mem : Memory) (t : ControlTransfer) : Prop where
  chain : ChainOf mem 0x0500#16 t.transactions
  setup : mem 0x050C#16 = t.request ∧ mem 0x050E#16 = t.value ∧ mem 0x0510#16 = t.index ∧
    mem 0x0512#16 = t.length

section Layout

/-- The memory holds the words from `a` on. -/
def Holds (mem : Memory) (a : BitVec 16) (words : List (BitVec 16)) : Prop :=
  ∀ i (hi : i < words.length), mem (a + BitVec.ofNat 16 (2 * i)) = words[i]

variable {mem : Memory} {a : BitVec 16}

theorem holds_storeAll (mem : Memory) {words : List (BitVec 16)}
    (hfit : a.toNat + 2 * words.length < 2 ^ 16) :
    Holds (storeAll mem (storeWords a words)) a words :=
  fun _ hi => storeAll_storeWords mem hi hfit

theorem Holds.left {xs ys : List (BitVec 16)} (h : Holds mem a (xs ++ ys)) : Holds mem a xs := by
  intro i hi
  rw [h i (by rw [List.length_append]; omega), List.getElem_append_left hi]

theorem Holds.right {xs ys : List (BitVec 16)} (h : Holds mem a (xs ++ ys)) :
    Holds mem (a + BitVec.ofNat 16 (2 * xs.length)) ys := by
  intro i hi
  have hword := h (xs.length + i) (by rw [List.length_append]; omega)
  rw [List.getElem_append_right (Nat.le_add_right _ _)] at hword
  simp only [Nat.add_sub_cancel_left] at hword
  rw [BitVec.add_assoc, ← BitVec.ofNat_add, ← Nat.mul_add, hword]

theorem Transaction.token_parts (t : Transaction) :
    t.token.extractLsb' 8 8 = t.device ∧ Pid.ofCode (t.token.extractLsb' 4 4) = some t.pid ∧
      t.token.extractLsb' 0 4 = t.endpoint := by
  have hcode : t.token.extractLsb' 4 4 = t.pid.code := by
    apply BitVec.eq_of_getLsbD_eq
    intro i hi
    rw [BitVec.getLsbD_extractLsb', Transaction.token, BitVec.getLsbD_append,
      BitVec.getLsbD_append]
    simp [hi, show 4 + i < 8 by omega]
  refine ⟨?_, ?_, ?_⟩
  · apply BitVec.eq_of_getLsbD_eq
    intro i hi
    rw [BitVec.getLsbD_extractLsb', Transaction.token, BitVec.getLsbD_append]
    simp [hi]
  · rw [hcode]
    cases t.pid <;> rfl
  · apply BitVec.eq_of_getLsbD_eq
    intro i hi
    rw [BitVec.getLsbD_extractLsb', Transaction.token, BitVec.getLsbD_append,
      BitVec.getLsbD_append]
    simp [hi, show i < 8 by omega]

/-- A descriptor is read back. -/
theorem Holds.descriptor {t : Transaction} {next : BitVec 16} (h : Holds mem a (t.words next)) :
    (TransferDescriptor.load mem a).transaction = some t ∧
      (TransferDescriptor.load mem a).next = next := by
  have hword : ∀ i (hi : i < 6), mem (a + BitVec.ofNat 16 (2 * i)) = (t.words next).get ⟨i, hi⟩ :=
    fun i hi => h i hi
  have hload : TransferDescriptor.load mem a =
      { address := a
        buffer := t.buffer
        length := t.length
        token := t.token
        control := t.control
        retry := 0x0013#16
        next := next } := by
    have hzero := hword 0 (by decide)
    rw [show a + BitVec.ofNat 16 (2 * 0) = a from BitVec.add_zero a] at hzero
    rw [TransferDescriptor.load, hzero]
    exact congr (congr (congr (congr (congr rfl (hword 1 (by decide))) (hword 2 (by decide)))
      (hword 3 (by decide))) (hword 4 (by decide))) (hword 5 (by decide))
  obtain ⟨hdevice, hpid, hendpoint⟩ := t.token_parts
  rw [hload]
  refine ⟨?_, rfl⟩
  rw [TransferDescriptor.transaction, hdevice, hpid, hendpoint]
  cases htoggle : t.toggle <;> simp [Transaction.control, htoggle] <;> rw [← htoggle]

theorem chainWords_length (ts : List Transaction) (a : BitVec 16) :
    (Transaction.chainWords a ts).length = 6 * ts.length := by
  induction ts generalizing a with
  | nil => rfl
  | cons t ts ih =>
      cases ts with
      | nil => rfl
      | cons u ts =>
          rw [Transaction.chainWords, List.length_append, ih, List.length_cons]
          simp only [Transaction.words, List.length_cons, List.length_nil]
          omega

theorem ChainOf.cons {t : Transaction} {next : BitVec 16} {ts : List Transaction}
    (ha : a ≠ 0#16) (h : Holds mem a (t.words next)) (hrest : ChainOf mem next ts) :
    ChainOf mem a (t :: ts) := by
  obtain ⟨htransaction, hnext⟩ := h.descriptor
  obtain ⟨tds, hchain, htds⟩ := hrest
  refine ⟨TransferDescriptor.load mem a :: tds, .cons ha (hnext.symm ▸ hchain), ?_⟩
  rw [List.map_cons, List.map_cons, htransaction, htds]

/-- Descriptors laid out one after the other form a chain. -/
theorem chainOf_chainWords {ts : List Transaction} (hts : ts ≠ []) (hpos : a ≠ 0#16)
    (hfit : a.toNat + 12 * ts.length < 2 ^ 16) (h : Holds mem a (Transaction.chainWords a ts)) :
    ChainOf mem a ts := by
  induction ts generalizing a with
  | nil => exact absurd rfl hts
  | cons t ts ih =>
      cases ts with
      | nil => exact .cons hpos h ⟨[], .nil, rfl⟩
      | cons u ts =>
          have hnext : (a + 12#16).toNat = a.toNat + 12 := by
            rw [List.length_cons] at hfit
            rw [BitVec.toNat_add_of_lt (by simp only [BitVec.toNat_ofNat]; omega)]
            rfl
          rw [List.length_cons] at hfit
          refine .cons hpos h.left (ih (List.cons_ne_nil u ts) ?_ (by omega) h.right)
          intro hzero
          rw [hzero] at hnext
          simp only [BitVec.toNat_ofNat] at hnext
          omega

theorem ControlTransfer.words_length (t : ControlTransfer) :
    t.words.length = 16 + 6 * ((t.dataLength + 7) / 8) := by
  rw [ControlTransfer.words, List.length_append, List.length_append, chainWords_length,
    List.length_append, ControlTransfer.dataStage, List.length_map, List.length_range]
  simp only [Transaction.words, List.length_cons, List.length_nil]
  omega

/-- What has been laid out is read back, for any length of the data stage. -/
theorem encodes {t : ControlTransfer} (hfit : t.dataLength ≤ 40000)
    (hholds : Holds mem 0x0500#16 t.words) : Encodes mem t := by
  have hrest : Holds mem 0x050C#16 _ := hholds.right
  constructor
  · refine .cons (by decide) hholds.left (chainOf_chainWords ?_ (by decide) ?_ hrest.right)
    · exact List.append_ne_nil_of_right_ne_nil _ (List.cons_ne_nil _ _)
    · rw [List.length_append, ControlTransfer.dataStage, List.length_map, List.length_range,
        BitVec.toNat_ofNat, List.length_singleton]
      omega
  · have hsetup : ∀ i (hi : i < 4), _ = [t.request, t.value, t.index, t.length].get ⟨i, hi⟩ :=
      fun i hi => hrest.left i hi
    exact ⟨hsetup 0 (by decide), hsetup 1 (by decide), hsetup 2 (by decide),
      hsetup 3 (by decide)⟩

end Layout

/-- The control transfers of the enumeration. The device answers to address 0
until the first of them has given it address 2. -/
def Stage.transfer : Stage → ControlTransfer
  | .setAddress => ⟨0#8, 0x0500#16, 0x0002#16, 0#16, 0x0000#16, 0#16, 0⟩
  | .getDeviceDesc1 => ⟨2#8, 0x0680#16, 0x0100#16, 0#16, 0x0008#16, 0x052C#16, 8⟩
  | .getDeviceDesc2 => ⟨2#8, 0x0680#16, 0x0100#16, 0#16, 0x0012#16, 0x0544#16, 18⟩
  | .getConfigDesc1 => ⟨2#8, 0x0680#16, 0x0200#16, 0#16, 0x0009#16, 0x0544#16, 9⟩
  | .getConfigDesc2 => ⟨2#8, 0x0680#16, 0x0200#16, 0#16, 0x00FF#16, 0x055C#16, 34⟩
  | .setConfig => ⟨2#8, 0x0900#16, 0x0001#16, 0#16, 0x0000#16, 0#16, 0⟩
  | .classRequest => ⟨2#8, 0x0A21#16, 0x0000#16, 0#16, 0x0000#16, 0#16, 0⟩
  | .getHidDesc => ⟨2#8, 0x0681#16, 0x2100#16, 0#16, 0x007B#16, 0x0544#16, 8⟩
  | .getReportDesc => ⟨2#8, 0x0681#16, 0x2200#16, 0#16, 0x007B#16, 0x0580#16, 59⟩

/-- The hand-written words of every stage are the layout of its transfer. -/
theorem Stage.build_eq (stage : Stage) :
    stage.build = submitList 0x0500#16 stage.transfer.words := by
  cases stage <;> decide +kernel

theorem Stage.transfer_proper (stage : Stage) : stage.transfer.Proper := by
  cases stage <;> exact ⟨by decide, by decide⟩

/-- A poll fetches the next report from endpoint 1. -/
def pollTransaction (l : Locals) : Transaction where
  device := 2#8
  pid := .dataIn
  endpoint := 1#4
  toggle := l.toggle % 2#8 = 0#8
  buffer := 0x051c#16
  length := 0x000f#16 &&& l.dataSize.setWidth 16

theorem pollWords_eq (l : Locals) :
    pollWords l.toggle l.dataSize = (pollTransaction l).words 0#16 := by
  rw [pollWords, Transaction.words, Transaction.control, pollTransaction]
  by_cases htoggle : l.toggle % 2#8 = 0#8
  · simp [htoggle, Transaction.token, Pid.code]
  · simp [htoggle, Transaction.token, Pid.code]

/-- The words a submit loop stores. -/
def Job.words (l : Locals) : Job → List (BitVec 16)
  | .enumeration stage => stage.transfer.words
  | .polling => (pollTransaction l).words 0#16

theorem Job.build_eq (l : Locals) (job : Job) :
    job.build l = submitList 0x0500#16 (job.words l) := by
  cases job with
  | enumeration stage => exact stage.build_eq
  | polling => exact congrArg (submitList 0x0500#16) (pollWords_eq l)

theorem Job.words_length (l : Locals) (job : Job) : (job.words l).length ≤ 64 := by
  cases job with
  | enumeration stage =>
      rw [words, ControlTransfer.words_length]
      cases stage <;> decide
  | polling => exact Nat.le_of_ble_eq_true rfl

/-- The address the device answers to: the first list of the enumeration gives it one. -/
def Job.deviceAddress : Job → BitVec 16
  | .enumeration .setAddress => 0#16
  | _ => (Stage.transfer .setAddress).value

theorem Stage.transfer_device (stage : Stage) :
    stage.transfer.device.setWidth 16 = (Job.enumeration stage).deviceAddress := by
  cases stage <;> decide

/-- What the memory has to hold for a submission of the job. -/
def Requests (mem : Memory) (l : Locals) : Job → Prop
  | .enumeration stage =>
    Encodes mem stage.transfer ∧ stage.transfer.Proper ∧
      stage.transfer.device.setWidth 16 = (Job.enumeration stage).deviceAddress
  | .polling =>
    ChainOf mem 0x0500#16 [pollTransaction l] ∧
      (pollTransaction l).device.setWidth 16 = Job.polling.deviceAddress

/-- The words of the job are a request of it. -/
theorem Holds.requests {mem : Memory} {l : Locals} {job : Job}
    (h : Holds mem 0x0500#16 (job.words l)) : Requests mem l job := by
  cases job with
  | enumeration stage =>
      refine ⟨encodes ?_ h, stage.transfer_proper, stage.transfer_device⟩
      cases stage <;> decide
  | polling => exact ⟨.cons (by decide) h ⟨[], .nil, rfl⟩, rfl⟩

end SpaceInvaders.Usb
