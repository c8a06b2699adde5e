import Ls2kMorse.Lib.WriteBuffer
import Ls2kMorse.Lib.Hysteresis
import Ls2kMorse.Lib.Split
import Ls2kMorse.Morse.Alphabet
import Ls2kMorse.Recognizer.DecisionLoop
import Ls2kMorse.Recognizer.InverseTranslate
import Ls2kMorse.Recognizer.Segmentation
import Ls2kMorse.Recognizer.StreamShape
import Ls2kMorse.Recognizer.Reception
import Ls2kMorse.Link.Agreement
import Ls2kMorse.Player.Playback
import Ls2kMorse.Link.Timing
import Ls2kMorse.Recorder.Record
import Ls2kMorse.Interrupt.Liointc
import Ls2kMorse.Lib.Trace
import Ls2kMorse.Spi.ChipSelect
import Ls2kMorse.Spi.Vs1003
import Ls2kMorse.Spi.Ads1118
import Ls2kMorse.Spi.Isolation
import Ls2kMorse.Player.Bounds
import Ls2kMorse.Player.Decodable
import Ls2kMorse.Player.Delays
import Ls2kMorse.Recognizer.Bounds
import Ls2kMorse.Recognizer.Framing
import Ls2kMorse.I2c.Acknowledge
import Ls2kMorse.Gpio.PinIrq
import Ls2kMorse.I2c.Memory
import Ls2kMorse.Lib.Ring
import Ls2kMorse.Net.TxQueue
import Ls2kMorse.Net.Transmit
import Ls2kMorse.Net.RxQueue
import Ls2kMorse.Lib.RoundRobin
import Ls2kMorse.Net.Receive
import Ls2kMorse.Net.Lock
import Ls2kMorse.Net.Ownership
import Ls2kMorse.Net.Outcome
import Ls2kMorse.Lib.Window
import Ls2kMorse.Lib.Riff
import Ls2kMorse.Recorder.WavFormat
import Ls2kMorse.Adpcm.Decoder
import Ls2kMorse.Adpcm.BandEnergy
import Ls2kMorse.Adpcm.SampleLoops
import Ls2kMorse.Adpcm.FilterThread
import Ls2kMorse.Recorder.Fifo
import Ls2kMorse.Spi.Streaming
import Ls2kMorse.Spi.Settings
import Ls2kMorse.Lib.Session
import Ls2kMorse.I2c.Eeprom
import Ls2kMorse.I2c.EepromCommand
import Ls2kMorse.Lib.Accumulate
import Ls2kMorse.Interrupt.TriggerMode
import Ls2kMorse.Interrupt.Vectors
import Ls2kMorse.Lib.BitField
import Ls2kMorse.Rtc.Packing
import Ls2kMorse.Net.Recovery
import Ls2kMorse.I2c.Gethex
import Ls2kMorse.Adpcm.Encoder
import Ls2kMorse.Adpcm.Interleaved
import Ls2kMorse.Adpcm.RoundTrip
import Ls2kMorse.Adpcm.Accuracy
import Ls2kMorse.Gpio.Pins
import Ls2kMorse.Lib.Simulation
import Ls2kMorse.Spi.Transfer
import Ls2kMorse.Player.Sounder
import Ls2kMorse.Recorder.OnWires
import Ls2kMorse.Adpcm.Spectrum
import Ls2kMorse.Lib.RegisterMask
import Ls2kMorse.Net.LinkTimer
