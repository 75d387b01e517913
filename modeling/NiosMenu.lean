import NiosMenu.Reactive
import NiosMenu.Firmware
import NiosMenu.Networked
import NiosMenu.Standalone
import NiosMenu.Devices
import NiosMenu.Menu
import NiosMenu.Panel
import NiosMenu.Framing
import NiosMenu.Codec
import NiosMenu.Mqtt
import NiosMenu.Broker
import NiosMenu.AtStream
import NiosMenu.LcdModule
import NiosMenu.LcdBus
import NiosMenu.CustomInstruction
import NiosMenu.LcdController
import NiosMenu.Display
import NiosMenu.LcdTiming
import NiosMenu.Mailbox
import NiosMenu.Receive
import NiosMenu.Recognize
import NiosMenu.Imprime
import NiosMenu.SerialLine
import NiosMenu.Uart
import NiosMenu.UartTx
import NiosMenu.UartRx
import NiosMenu.UartRate
import NiosMenu.OnePlace
import NiosMenu.UartRegs
import NiosMenu.Acknowledge
import NiosMenu.TwoStage
import NiosMenu.Transmit
import NiosMenu.Board
import NiosMenu.InTime
import NiosMenu.BusySleep
import NiosMenu.AltPrintf
import NiosMenu.Console
import NiosMenu.JtagUart
import NiosMenu.RoundRobin
import NiosMenu.Arbiter
import NiosMenu.CommandMux
import NiosMenu.Interconnect
import NiosMenu.Pauses
import NiosMenu.Refinement
import NiosMenu.UartPort
import NiosMenu.Processor
