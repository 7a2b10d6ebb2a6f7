import SpaceInvaders.Hardware.VgaController
import SpaceInvaders.Hardware.Cannon
import SpaceInvaders.Hardware.Laser
import SpaceInvaders.Hardware.ColorMapper
import SpaceInvaders.Hardware.FinalProject
import SpaceInvaders.Hardware.AlienControl
import SpaceInvaders.Hardware.AlienMarch
import SpaceInvaders.Game.Basic
import SpaceInvaders.Game.CannonTrack
import SpaceInvaders.Game.CannonMirror
import SpaceInvaders.Game.CannonReach
import SpaceInvaders.Game.CannonPark
import SpaceInvaders.Game.Flight
import SpaceInvaders.Game.Shots
import SpaceInvaders.Game.FireRate
import SpaceInvaders.Display.Timing
import SpaceInvaders.Display.Raster
import SpaceInvaders.Display.Refinement
import SpaceInvaders.Display.Picture
import SpaceInvaders.Display.Reset
import SpaceInvaders.Display.KeycodeDigits
import SpaceInvaders.Display.Frame
import SpaceInvaders.Display.Stabilise
import SpaceInvaders.Display.Screen
import SpaceInvaders.Display.FirstFrame
import SpaceInvaders.Display.Arcade
import SpaceInvaders.Hpi.Bus
import SpaceInvaders.Hpi.WriteCycle
import SpaceInvaders.Hpi.PowerOn
import SpaceInvaders.Hpi.Transactions
import SpaceInvaders.Hpi.ChipView
import SpaceInvaders.Hpi.ResetPress
import SpaceInvaders.Machine.Chain
import SpaceInvaders.Usb.WaitTDListDone
import SpaceInvaders.Usb.Main
import SpaceInvaders.Usb.Device
import SpaceInvaders.Usb.Memory
import SpaceInvaders.Usb.Submission
import SpaceInvaders.Usb.ControlTransfer
import SpaceInvaders.Usb.Requests
import SpaceInvaders.Usb.DataToggle
import SpaceInvaders.Usb.Mailbox
import SpaceInvaders.Usb.Completion
import SpaceInvaders.Usb.Ledger
import SpaceInvaders.Usb.Progress
import SpaceInvaders.Usb.RetryCount
import SpaceInvaders.Usb.Keycode
import SpaceInvaders.Usb.Enumeration
import SpaceInvaders.Usb.Liveness
import SpaceInvaders.Usb.HotPlug
import SpaceInvaders.Usb.Footprint
import SpaceInvaders.Usb.OnPins
import SpaceInvaders.Console
import SpaceInvaders.HeldKeys
