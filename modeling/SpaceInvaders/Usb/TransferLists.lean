import SpaceInvaders.Software.IoHandler
import SpaceInvaders.Usb.Registers

/-!
# Transfer lists: the functions of `usb.c`

A transfer list is a chain of descriptors of six words: buffer, length,
PID and endpoint and device, control, retry, next. The host writes it word by
word through `HPI_DATA`, which advances the address by two, and hands it to the
chip by writing its address to `HUSB_SIE1_pCurrentTDPtr`.

The nine functions of the enumeration differ in their words only. Four words
between two descriptors are the setup packet the first of them points to.
-/

namespace SpaceInvaders.Usb

open Software

def usbWrite (address data : BitVec 16) : List Call :=
  [.write HPI_ADDR address, .write HPI_DATA data]

def usbRead (address : BitVec 16) : List Call := [.write HPI_ADDR address, .read HPI_DATA]

/-- Write `words` from `start` on and submit the list that begins there. -/
def submitList (start : BitVec 16) (words : List (BitVec 16)) : List Call :=
  .write HPI_ADDR start :: words.map (.write HPI_DATA) ++ usbWrite HUSB_SIE1_pCurrentTDPtr start

def usbSetAddress : List Call := submitList 0x0500#16
  [ 0x050C#16, 0x0008#16, 0x00D0#16, 0x0001#16, 0x0013#16, 0x0514#16,
    0x0500#16, 0x0002#16, 0x0000#16, 0x0000#16,
    0x0000#16, 0x0000#16, 0x0090#16, 0x0041#16, 0x0013#16, 0x0000#16 ]

def usbGetDeviceDesc1 : List Call := submitList 0x0500#16
  [ 0x050C#16, 0x0008#16, 0x02D0#16, 0x0001#16, 0x0013#16, 0x0514#16,
    0x0680#16, 0x0100#16, 0x0000#16, 0x0008#16,
    0x052C#16, 0x0008#16, 0x0290#16, 0x0041#16, 0x0013#16, 0x0520#16,
    0x0000#16, 0x0000#16, 0x0210#16, 0x0041#16, 0x0013#16, 0x0000#16 ]

def usbGetDeviceDesc2 : List Call := submitList 0x0500#16
  [ 0x050C#16, 0x0008#16, 0x02D0#16, 0x0001#16, 0x0013#16, 0x0514#16,
    0x0680#16, 0x0100#16, 0x0000#16, 0x0012#16,
    0x0544#16, 0x0008#16, 0x0290#16, 0x0041#16, 0x0013#16, 0x0520#16,
    0x054c#16, 0x0008#16, 0x0290#16, 0x0001#16, 0x0013#16, 0x052c#16,
    0x0554#16, 0x0002#16, 0x0290#16, 0x0041#16, 0x0013#16, 0x0538#16,
    0x0000#16, 0x0000#16, 0x0210#16, 0x0041#16, 0x0013#16, 0x0000#16 ]

def usbGetConfigDesc1 : List Call := submitList 0x0500#16
  [ 0x050C#16, 0x0008#16, 0x02D0#16, 0x0001#16, 0x0013#16, 0x0514#16,
    0x0680#16, 0x0200#16, 0x0000#16, 0x0009#16,
    0x0544#16, 0x0008#16, 0x0290#16, 0x0041#16, 0x0013#16, 0x0520#16,
    0x054c#16, 0x0001#16, 0x0290#16, 0x0001#16, 0x0013#16, 0x052c#16,
    0x0000#16, 0x0000#16, 0x0210#16, 0x0041#16, 0x0013#16, 0x0000#16 ]

def usbGetConfigDesc2 : List Call := submitList 0x0500#16
  [ 0x050C#16, 0x0008#16, 0x02D0#16, 0x0001#16, 0x0013#16, 0x0514#16,
    0x0680#16, 0x0200#16, 0x0000#16, 0x00FF#16,
    0x055c#16, 0x0008#16, 0x0290#16, 0x0041#16, 0x0013#16, 0x0520#16,
    0x0564#16, 0x0008#16, 0x0290#16, 0x0001#16, 0x0013#16, 0x052c#16,
    0x056c#16, 0x0008#16, 0x0290#16, 0x0041#16, 0x0013#16, 0x0538#16,
    0x0574#16, 0x0008#16, 0x0290#16, 0x0001#16, 0x0013#16, 0x0544#16,
    0x057c#16, 0x0002#16, 0x0290#16, 0x0041#16, 0x0013#16, 0x0550#16,
    0x0000#16, 0x0000#16, 0x0210#16, 0x0041#16, 0x0013#16, 0x0000#16 ]

def usbSetConfig : List Call := submitList 0x0500#16
  [ 0x050C#16, 0x0008#16, 0x02D0#16, 0x0001#16, 0x0013#16, 0x0514#16,
    0x0900#16, 0x0001#16, 0x0000#16, 0x0000#16,
    0x0000#16, 0x0000#16, 0x0290#16, 0x0041#16, 0x0013#16, 0x0000#16 ]

def usbClassRequest : List Call := submitList 0x0500#16
  [ 0x050C#16, 0x0008#16, 0x02D0#16, 0x0001#16, 0x0013#16, 0x0514#16,
    0x0A21#16, 0x0000#16, 0x0000#16, 0x0000#16,
    0x0000#16, 0x0000#16, 0x0290#16, 0x0041#16, 0x0013#16, 0x0000#16 ]

def usbGetHidDesc : List Call := submitList 0x0500#16
  [ 0x050C#16, 0x0008#16, 0x02D0#16, 0x0001#16, 0x0013#16, 0x0514#16,
    0x0681#16, 0x2100#16, 0x0000#16, 0x007B#16,
    0x0544#16, 0x0008#16, 0x0290#16, 0x0041#16, 0x0013#16, 0x0520#16,
    0x0000#16, 0x0000#16, 0x0210#16, 0x0041#16, 0x0013#16, 0x0000#16 ]

def usbGetReportDesc : List Call := submitList 0x0500#16
  [ 0x050C#16, 0x0008#16, 0x02D0#16, 0x0001#16, 0x0013#16, 0x0514#16,
    0x0681#16, 0x2200#16, 0x0000#16, 0x007B#16,
    0x0580#16, 0x0008#16, 0x0290#16, 0x0041#16, 0x0013#16, 0x0520#16,
    0x0588#16, 0x0008#16, 0x0290#16, 0x0001#16, 0x0013#16, 0x052c#16,
    0x0590#16, 0x0008#16, 0x0290#16, 0x0041#16, 0x0013#16, 0x0538#16,
    0x0598#16, 0x0008#16, 0x0290#16, 0x0001#16, 0x0013#16, 0x0544#16,
    0x05a0#16, 0x0008#16, 0x0290#16, 0x0041#16, 0x0013#16, 0x0550#16,
    0x05a8#16, 0x0008#16, 0x0290#16, 0x0001#16, 0x0013#16, 0x055c#16,
    0x05b0#16, 0x0008#16, 0x0290#16, 0x0041#16, 0x0013#16, 0x0568#16,
    0x05b8#16, 0x0003#16, 0x0290#16, 0x0001#16, 0x0013#16, 0x0574#16,
    0x0000#16, 0x0000#16, 0x0210#16, 0x0041#16, 0x0013#16, 0x0000#16 ]

/-- The descriptor of a poll: an interrupt IN of `dataSize` bytes to `0x051c`. -/
def pollWords (toggle dataSize : BitVec 8) : List (BitVec 16) :=
  [ 0x051c#16, 0x000f#16 &&& dataSize.setWidth 16, 0x0291#16,
    if toggle % 2#8 ≠ 0#8 then 0x0001#16 else 0x0041#16, 0x0013#16, 0x0000#16 ]

def pollList (toggle dataSize : BitVec 8) : List Call :=
  submitList 0x0500#16 (pollWords toggle dataSize)

/-- What `main` writes before it reads the size of the endpoint: five words at
the end of the received configuration descriptor, submitted as a list. -/
def endpointDesc : List Call := submitList 0x0576#16
  [0x073F#16, 0x8105#16, 0x0003#16, 0x0008#16, 0xAC0A#16]

end SpaceInvaders.Usb
