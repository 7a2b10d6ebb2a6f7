import Mathlib.Data.BitVec

/-!
# Registers and constants of the CY7C67200

The names of `cy7c67200.h`, `lcp_cmd.h` and `io_handler.h` that `main.c` and
`usb.c` use. The four HPI ports are the values of the two address lines of the
bridge; everything else is reached through `HPI_ADDR` and `HPI_DATA`.
-/

namespace SpaceInvaders.Usb

/-! ## HPI ports -/

def HPI_DATA : BitVec 8 := 0#8
def HPI_MAILBOX : BitVec 8 := 1#8
def HPI_ADDR : BitVec 8 := 2#8
def HPI_STATUS : BitVec 8 := 3#8

def HPI_STATUS_SIE1msg_FLAG : BitVec 16 := 0x0010#16

/-! ## Commands of the mailbox protocol -/

def COMM_RESET : BitVec 16 := 0xFA50#16
def COMM_EXEC_INT : BitVec 16 := 0xCE01#16
def COMM_ACK : BitVec 16 := 0x0FED#16
def COMM_NAK : BitVec 16 := 0xDEAD#16
def HUSB_SIE1_INIT_INT : BitVec 16 := 0x0072#16
def HUSB_RESET_INT : BitVec 16 := 0x0074#16

/-! ## Memory and control registers -/

def HPI_IRQ_ROUTING_REG : BitVec 16 := 0x0142#16
def HPI_SIE1_MSG_ADR : BitVec 16 := 0x0144#16
def HPI_SIE2_MSG_ADR : BitVec 16 := 0x0148#16
def HUSB_SIE1_pCurrentTDPtr : BitVec 16 := 0x01B0#16
def HUSB_pEOT : BitVec 16 := 0x01B4#16
def COMM_INT_NUM : BitVec 16 := 0x01C2#16

/-- `COMM_R0` to `COMM_R13`: the arguments of a mailbox command. -/
def COMM_R (i : Nat) : BitVec 16 := 0x01C4#16 + BitVec.ofNat 16 (2 * i)

def USB1_CTL_REG : BitVec 16 := 0xC08A#16
def HOST1_IRQ_EN_REG : BitVec 16 := 0xC08C#16
def HOST1_STAT_REG : BitVec 16 := 0xC090#16
def HOST2_STAT_REG : BitVec 16 := 0xC0B0#16

def A_DP_STAT : BitVec 16 := 0x2000#16
def A_DM_STAT : BitVec 16 := 0x1000#16
def A_CHG_IRQ_EN : BitVec 16 := 0x0010#16
def SOF_EOP_IRQ_EN : BitVec 16 := 0x0200#16
def SOFEOP1_TO_CPU_EN : BitVec 16 := 0x0400#16
def RESUME1_TO_HPI_EN : BitVec 16 := 0x0040#16

end SpaceInvaders.Usb
