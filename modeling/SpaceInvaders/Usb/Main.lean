import SpaceInvaders.Usb.TransferLists
import SpaceInvaders.Usb.WaitTDListDone

/-!
# The host program: `main.c`

`main` is a graph of basic blocks. A block is a list of calls, and what comes
next is decided at its end from the locals; every test of the source is about
the value of the latest `IO_read`, so a block ends at its first read. `Host`
is a point of the program: the block, the calls that are left of it and the
locals. `Host.step` performs one call and passes it the value that a read
returns. `printf` and `usleep` leave no trace.

The nine stages of the enumeration run the same blocks with their own transfer
list, and the poll shares the submit loop and the wait with them.
-/

namespace SpaceInvaders.Usb

open Software

/-- The control transfers of the enumeration, in the order of `main`. -/
inductive Stage where
  | setAddress
  | getDeviceDesc1
  | getDeviceDesc2
  | getConfigDesc1
  | getConfigDesc2
  | setConfig
  | classRequest
  | getHidDesc
  | getReportDesc
deriving Repr, DecidableEq

/-- What a submit loop works for. -/
inductive Job where
  | enumeration (stage : Stage)
  | polling
deriving Repr, DecidableEq

/-- The basic blocks. -/
inductive Pc where
  -- `UsbSoftReset`, entered through `USB_HOT_PLUG`
  | resetMailbox
  | resetStatus
  | resetSie1
  | resetSie2
  -- step 1, after the end of `UsbSoftReset`
  | stepOne
  | stepOneStatus
  | stepOneMailbox
  | stepOneError
  -- step 2
  | stepTwo
  | stepTwoMailbox
  | stepTwoError
  -- is a keyboard plugged in?
  | detect
  | detectRetry
  | waitInsert
  -- the submit loop and `UsbWaitTDListDone`
  | submit (job : Job)
  | status (job : Job)
  | resubmit (job : Job)
  | waitRead (job : Job)
  | waitClear (job : Job)
  -- the two bytes printed after a stage
  | controlStatus (stage : Stage)
  | control (stage : Stage)
  -- `UsbGetRetryCnt`
  | retryStatus
  | retryMsg
  | retryClear
  | retryPoll
  | retryCnt
  -- between steps 6 and 7
  | deviceInfo
  | endpointDesc
  | dataSize
  -- the rest of the polling loop
  | readKeycode
  | publish
  | checkPlug
  | plugRetry
  -- the loop that waits for the keyboard to come back
  | removed1
  | removed2
  | removed3
deriving Repr, DecidableEq

/-- The locals of `main`. -/
structure Locals where
  /-- The value of the latest `IO_read`. -/
  ioRead : BitVec 16
  toggle : BitVec 8
  dataSize : BitVec 8
  hotPlugCount : BitVec 8
  keycode : BitVec 16
deriving Repr, DecidableEq

/-- A call of `IO_write` or `IO_read`, or the store to the keycode PIO. -/
inductive Op where
  | call (c : Call)
  | publish
deriving Repr, DecidableEq

def Op.isRead : Op → Bool
  | .call (.read _) => true
  | _ => false

/-- The list a stage submits. -/
def Stage.build : Stage → List Call
  | .setAddress => usbSetAddress
  | .getDeviceDesc1 => usbGetDeviceDesc1
  | .getDeviceDesc2 => usbGetDeviceDesc2
  | .getConfigDesc1 => usbGetConfigDesc1
  | .getConfigDesc2 => usbGetConfigDesc2
  | .setConfig => usbSetConfig
  | .classRequest => usbClassRequest
  | .getHidDesc => usbGetHidDesc
  | .getReportDesc => usbGetReportDesc

/-- The list a submit loop submits, at first and again. -/
def Job.build (l : Locals) : Job → List Call
  | .enumeration stage => stage.build
  | .polling => pollList l.toggle l.dataSize

/-- The calls of a block. -/
def calls (l : Locals) : Pc → List Call
  | .resetMailbox => [.write HPI_MAILBOX COMM_RESET, .read HPI_MAILBOX]
  | .resetStatus => [.read HPI_STATUS]
  | .resetSie1 => usbRead HPI_SIE1_MSG_ADR
  | .resetSie2 => usbWrite HPI_SIE1_MSG_ADR 0#16 ++ usbRead HPI_SIE2_MSG_ADR
  | .stepOne =>
    usbWrite HPI_SIE2_MSG_ADR 0#16 ++
    usbWrite HOST1_STAT_REG 0xFFFF#16 ++
    usbWrite HOST2_STAT_REG 0xFFFF#16 ++
    -- STEP 1a
    usbWrite HPI_SIE1_MSG_ADR 0#16 ++
    usbWrite HOST1_STAT_REG 0xFFFF#16 ++
    usbWrite HUSB_pEOT 600#16 ++
    usbWrite HPI_IRQ_ROUTING_REG (SOFEOP1_TO_CPU_EN ||| RESUME1_TO_HPI_EN) ++
    usbWrite HOST1_IRQ_EN_REG (A_CHG_IRQ_EN ||| SOF_EOP_IRQ_EN) ++
    -- STEP 1b
    (List.range 14).flatMap (fun i => usbWrite (COMM_R i) 0x0000#16) ++
    usbWrite COMM_INT_NUM HUSB_SIE1_INIT_INT ++
    [.write HPI_MAILBOX COMM_EXEC_INT]
  | .stepOneStatus => [.read HPI_STATUS]
  | .stepOneMailbox => [.read HPI_MAILBOX]
  | .stepOneError => [.read HPI_MAILBOX]
  | .stepTwo =>
    usbWrite COMM_INT_NUM HUSB_RESET_INT ++
    usbWrite (COMM_R 0) 0x003c#16 ++
    (List.range 13).flatMap (fun i => usbWrite (COMM_R (i + 1)) 0x0000#16) ++
    [.write HPI_MAILBOX COMM_EXEC_INT]
  | .stepTwoMailbox => [.read HPI_MAILBOX]
  | .stepTwoError => [.read HPI_MAILBOX]
  | .detect => usbRead USB1_CTL_REG
  | .detectRetry => usbRead USB1_CTL_REG
  | .waitInsert => usbRead USB1_CTL_REG
  | .submit job => job.build l
  | .status _ => [.read HPI_STATUS]
  | .resubmit job => job.build l
  | .waitRead _ => usbRead HPI_SIE1_MSG_ADR
  | .waitClear _ => usbWrite HPI_SIE1_MSG_ADR 0#16
  | .controlStatus _ => usbRead 0x0506#16
  | .control _ => usbRead 0x0508#16
  | .retryStatus => [.read HPI_STATUS]
  | .retryMsg => usbRead HPI_SIE1_MSG_ADR
  | .retryClear => usbWrite HPI_SIE1_MSG_ADR 0#16
  | .retryPoll => [.read HPI_STATUS]
  | .retryCnt => usbRead 0x0508#16
  | .deviceInfo => usbRead 0x056c#16
  | .endpointDesc => Usb.endpointDesc
  | .dataSize => usbRead 0x057c#16
  | .readKeycode => usbRead 0x051e#16
  | .publish => []
  | .checkPlug => usbRead USB1_CTL_REG
  | .plugRetry => usbRead USB1_CTL_REG
  | .removed1 => usbRead USB1_CTL_REG
  | .removed2 => usbRead USB1_CTL_REG
  | .removed3 => usbRead USB1_CTL_REG

/-- The steps of a block. -/
def block (pc : Pc) (l : Locals) : List Op :=
  match pc with
  | .publish => [.publish]
  | pc => (calls l pc).map .call

/-- Either data line is high: `usb_ctl_val & no_device`. -/
def devicePresent (usbCtlVal : BitVec 16) : Bool :=
  usbCtlVal &&& (A_DP_STAT ||| A_DM_STAT) ≠ 0#16

/-- The test of the loops that poll `HPI_STATUS`. -/
def sie1Msg (status : BitVec 16) : Bool := status &&& HPI_STATUS_SIE1msg_FLAG ≠ 0#16

/-- The head of the polling loop. -/
def beginPoll (l : Locals) : Pc × Locals :=
  (.submit .polling, { l with toggle := l.toggle + 1#8 })

/-- Where the program goes when a stage has succeeded. -/
def Stage.next (l : Locals) : Stage → Pc × Locals
  | .setAddress => (.submit (.enumeration .getDeviceDesc1), l)
  | .getDeviceDesc1 => (.submit (.enumeration .getDeviceDesc2), l)
  | .getDeviceDesc2 => (.submit (.enumeration .getConfigDesc1), l)
  | .getConfigDesc1 => (.submit (.enumeration .getConfigDesc2), l)
  | .getConfigDesc2 => (.deviceInfo, l)
  | .setConfig => (.submit (.enumeration .classRequest), l)
  | .classRequest => (.submit (.enumeration .getHidDesc), l)
  | .getHidDesc => (.submit (.enumeration .getReportDesc), l)
  | .getReportDesc => beginPoll l

/-- Where the program goes at the end of a block, with the assignments made on
the way. -/
def next (pc : Pc) (l : Locals) : Pc × Locals :=
  match pc with
  | .resetMailbox => (.resetStatus, l)
  | .resetStatus => (.resetSie1, l)
  | .resetSie1 => (.resetSie2, l)
  | .resetSie2 => (.stepOne, l)
  | .stepOne => (.stepOneStatus, l)
  | .stepOneStatus =>
    if l.ioRead &&& 0xFFFF#16 = 0#16 then (.stepOneStatus, l) else (.stepOneMailbox, l)
  | .stepOneMailbox => if l.ioRead ≠ COMM_ACK then (.stepOneError, l) else (.stepTwo, l)
  | .stepOneError => (.resetMailbox, l)
  | .stepTwo => (.stepTwoMailbox, l)
  | .stepTwoMailbox => if l.ioRead ≠ COMM_ACK then (.stepTwoError, l) else (.detect, l)
  | .stepTwoError => (.resetMailbox, l)
  | .detect =>
    if devicePresent l.ioRead then (.submit (.enumeration .setAddress), l)
    else (.detectRetry, { l with hotPlugCount := 0#8 })
  | .detectRetry =>
    if devicePresent l.ioRead then (.submit (.enumeration .setAddress), l)
    else if l.hotPlugCount + 1#8 < 5#8 then
      (.detectRetry, { l with hotPlugCount := l.hotPlugCount + 1#8 })
    else (.waitInsert, { l with hotPlugCount := l.hotPlugCount + 1#8 })
  | .waitInsert => if devicePresent l.ioRead then (.resetMailbox, l) else (.waitInsert, l)
  | .submit job => (.status job, l)
  | .status job => if sie1Msg l.ioRead then (.waitRead job, l) else (.resubmit job, l)
  | .resubmit job => (.status job, l)
  | .waitRead job => (.waitClear job, l)
  | .waitClear job =>
    if l.ioRead ≠ HUSB_TDListDone then (.waitRead job, l)
    else
      match job with
      | .enumeration stage => (.controlStatus stage, l)
      | .polling => (.readKeycode, l)
  | .controlStatus stage => (.control stage, l)
  | .control stage => if l.ioRead ≠ 0x03#16 then (.retryStatus, l) else stage.next l
  | .retryStatus => (.retryMsg, l)
  | .retryMsg => if l.ioRead = HUSB_TDListDone then (.retryClear, l) else (.retryCnt, l)
  | .retryClear => (.retryPoll, l)
  | .retryPoll => if sie1Msg l.ioRead then (.retryCnt, l) else (.retryPoll, l)
  | .retryCnt => (.resetMailbox, l)
  | .deviceInfo => (.endpointDesc, l)
  | .endpointDesc => (.dataSize, l)
  | .dataSize =>
    (.submit (.enumeration .setConfig), { l with dataSize := (l.ioRead &&& 0x0ff#16).setWidth 8 })
  | .readKeycode => (.publish, { l with keycode := l.ioRead })
  | .publish => (.checkPlug, l)
  | .checkPlug =>
    if devicePresent l.ioRead then beginPoll l else (.plugRetry, { l with hotPlugCount := 0#8 })
  | .plugRetry =>
    if devicePresent l.ioRead then beginPoll l
    else if l.hotPlugCount + 1#8 < 7#8 then
      (.plugRetry, { l with hotPlugCount := l.hotPlugCount + 1#8 })
    else (.removed1, { l with hotPlugCount := l.hotPlugCount + 1#8 })
  | .removed1 => (.removed2, l)
  | .removed2 => (.removed3, l)
  | .removed3 => if devicePresent l.ioRead then (.resetMailbox, l) else (.removed1, l)

/-- The blocks that can follow a block. -/
def Pc.succs : Pc → List Pc
  | .resetMailbox => [.resetStatus]
  | .resetStatus => [.resetSie1]
  | .resetSie1 => [.resetSie2]
  | .resetSie2 => [.stepOne]
  | .stepOne => [.stepOneStatus]
  | .stepOneStatus => [.stepOneStatus, .stepOneMailbox]
  | .stepOneMailbox => [.stepOneError, .stepTwo]
  | .stepOneError => [.resetMailbox]
  | .stepTwo => [.stepTwoMailbox]
  | .stepTwoMailbox => [.stepTwoError, .detect]
  | .stepTwoError => [.resetMailbox]
  | .detect => [.submit (.enumeration .setAddress), .detectRetry]
  | .detectRetry => [.submit (.enumeration .setAddress), .detectRetry, .waitInsert]
  | .waitInsert => [.resetMailbox, .waitInsert]
  | .submit job => [.status job]
  | .status job => [.waitRead job, .resubmit job]
  | .resubmit job => [.status job]
  | .waitRead job => [.waitClear job]
  | .waitClear (.enumeration stage) =>
    [.waitRead (.enumeration stage), .controlStatus stage]
  | .waitClear .polling => [.waitRead .polling, .readKeycode]
  | .controlStatus stage => [.control stage]
  | .control .setAddress => [.retryStatus, .submit (.enumeration .getDeviceDesc1)]
  | .control .getDeviceDesc1 => [.retryStatus, .submit (.enumeration .getDeviceDesc2)]
  | .control .getDeviceDesc2 => [.retryStatus, .submit (.enumeration .getConfigDesc1)]
  | .control .getConfigDesc1 => [.retryStatus, .submit (.enumeration .getConfigDesc2)]
  | .control .getConfigDesc2 => [.retryStatus, .deviceInfo]
  | .control .setConfig => [.retryStatus, .submit (.enumeration .classRequest)]
  | .control .classRequest => [.retryStatus, .submit (.enumeration .getHidDesc)]
  | .control .getHidDesc => [.retryStatus, .submit (.enumeration .getReportDesc)]
  | .control .getReportDesc => [.retryStatus, .submit .polling]
  | .retryStatus => [.retryMsg]
  | .retryMsg => [.retryClear, .retryCnt]
  | .retryClear => [.retryPoll]
  | .retryPoll => [.retryCnt, .retryPoll]
  | .retryCnt => [.resetMailbox]
  | .deviceInfo => [.endpointDesc]
  | .endpointDesc => [.dataSize]
  | .dataSize => [.submit (.enumeration .setConfig)]
  | .readKeycode => [.publish]
  | .publish => [.checkPlug]
  | .checkPlug => [.submit .polling, .plugRetry]
  | .plugRetry => [.submit .polling, .plugRetry, .removed1]
  | .removed1 => [.removed2]
  | .removed2 => [.removed3]
  | .removed3 => [.resetMailbox, .removed1]

theorem next_mem_succs (pc : Pc) (l : Locals) : (next pc l).1 ∈ pc.succs := by
  cases pc with
  | waitClear job =>
      cases job <;> simp only [next, Pc.succs] <;> split_ifs <;> simp
  | control stage =>
      cases stage <;> simp only [next, Pc.succs, Stage.next, beginPoll] <;> split_ifs <;> simp
  | _ =>
      simp only [next, Pc.succs, beginPoll]
      first
      | exact List.mem_singleton.2 rfl
      | split_ifs <;> simp

/-- `toggle` is incremented at the head of the polling loop and nowhere else. -/
theorem next_toggle (pc : Pc) (l : Locals) :
    (next pc l).2.toggle =
      if (next pc l).1 = .submit .polling then l.toggle + 1#8 else l.toggle := by
  cases pc with
  | waitClear job =>
      cases job <;> simp only [next] <;> split_ifs <;> simp_all
  | control stage =>
      cases stage <;> simp only [next, Stage.next, beginPoll] <;> split_ifs <;> simp_all
  | _ =>
      simp only [next, beginPoll]
      first
      | rfl
      | split_ifs <;> simp_all

/-- A point of the program. -/
structure Host where
  pc : Pc
  /-- The calls of the block that have not been made yet. -/
  todo : List Op
  locals : Locals
deriving Repr, DecidableEq

namespace Host

/-- At the head of a block. -/
def enter (p : Pc × Locals) : Host := ⟨p.1, block p.1 p.2, p.2⟩

/-- `main` after `IO_init`. The locals that the source leaves uninitialised are
assigned before they are used. -/
def start : Host := enter (.resetMailbox, ⟨0#16, 0#8, 0#8, 0#8, 0#16⟩)

/-- The locals after `op`, where `v` is what a read returns. -/
def after (v : BitVec 16) (op : Op) (l : Locals) : Locals :=
  if op.isRead then { l with ioRead := v } else l

/-- The next call of the program, and the tests that follow it. -/
def step (v : BitVec 16) (s : Host) : Host :=
  match s.todo with
  | [] => s
  | [op] => enter (next s.pc (after v op s.locals))
  | op :: rest => ⟨s.pc, rest, after v op s.locals⟩

end Host

end SpaceInvaders.Usb
