import SomeOs.Base.Ring
import SomeOs.Base.Transition

/-! # The terminal

The input of a terminal is in a ring that grows up to a maximum, with a count of the line
delimiters in it. The functions run under the lock of the device. The bytes given to the UART
and the signals sent are kept in lists beside the fields of the device. An access outside of
the buffer has no result.
-/
namespace SomeOs.Tty
open ByteStore

/-- `INITIAL_TTY_BUFFER_CAPACITY` -/
abbrev initialCapacity : ℕ := 512

/-- `MAX_TTY_BUFFER_CAPACITY` -/
abbrev maxCapacity : ℕ := 4096

/-- `CLOCKS_PER_SEC` -/
abbrev clocksPerSec : ℕ := 10000000

/-- The entries of `cc` that are used. -/
inductive ControlChar where
  | vintr | vquit | verase | vkill | veof | vtime | vmin | vsusp | veol
  deriving DecidableEq

structure Termios where
  iflag : UInt16
  oflag : UInt16
  lflag : UInt16
  cc : ControlChar → UInt8

abbrev inlcr : UInt16 := 0o100
abbrev igncr : UInt16 := 0o200
abbrev icrnl : UInt16 := 0o400

abbrev opost : UInt16 := 0o1
abbrev ocrnl : UInt16 := 0o4
abbrev onlcr : UInt16 := 0o10
abbrev onocr : UInt16 := 0o20

abbrev isig : UInt16 := 0o1
abbrev icanon : UInt16 := 0o2
abbrev echo : UInt16 := 0o10
abbrev echoe : UInt16 := 0o20
abbrev echok : UInt16 := 0o40
abbrev echonl : UInt16 := 0o100
abbrev echoctl : UInt16 := 0o2000

def Termios.input (ctrl : Termios) (flag : UInt16) : Bool := ctrl.iflag &&& flag != 0
def Termios.output (ctrl : Termios) (flag : UInt16) : Bool := ctrl.oflag &&& flag != 0
def Termios.mode (ctrl : Termios) (flag : UInt16) : Bool := ctrl.lflag &&& flag != 0

inductive TtySignal where
  | sigint | sigquit | sigtstp
  deriving DecidableEq

structure UartTtyDevice where
  buffer : Store
  buffer_start : ℕ
  buffer_count : ℕ
  buffer_capacity : ℕ
  line_delim_count : UInt64
  last_byte : ℕ
  ctrl : Termios
  process_group : ℤ
  blocked : List ℕ
  written : List UInt8
  sent : List (ℤ × TtySignal)

abbrev newline : UInt8 := 10
abbrev carriageReturn : UInt8 := 13

/-- `newline`, `VEOL` or `VEOF` -/
def Termios.isDelim (ctrl : Termios) (c : UInt8) : Bool := c == newline || c == ctrl.cc .veol || c == ctrl.cc .veof

namespace UartTtyDevice

def getBuffer (dev : UartTtyDevice) (index : ℕ) : UInt8 :=
  dev.buffer ((dev.buffer_start + index) % dev.buffer_capacity)

def contents (dev : UartTtyDevice) : List UInt8 :=
  Ring.contents dev.buffer dev.buffer_capacity dev.buffer_start dev.buffer_count

/-- The loop of `bufferLineLength` from `i` on, with `n` bytes left. -/
def lineLengthFrom (dev : UartTtyDevice) : ℕ → ℕ → ℕ
  | 0, _ => 0
  | n + 1, i =>
    if dev.getBuffer i = newline ∨ dev.getBuffer i = dev.ctrl.cc .veol then i + 1
    else if dev.getBuffer i = dev.ctrl.cc .veof then i
    else dev.lineLengthFrom n (i + 1)

def bufferLineLength (dev : UartTtyDevice) : ℕ := dev.lineLengthFrom dev.buffer_count 0

def canReturnRead (dev : UartTtyDevice) (time : ℕ) : Bool :=
  if dev.ctrl.mode icanon then 0 < dev.line_delim_count
  else if dev.ctrl.cc .vtime = 0 then (dev.ctrl.cc .vmin).toNat ≤ dev.buffer_count
  else max (dev.ctrl.cc .vmin).toNat 1 ≤ dev.buffer_count ||
    (min (dev.ctrl.cc .vmin).toNat 1 ≤ dev.buffer_count &&
      dev.last_byte + (dev.ctrl.cc .vtime).toNat * clocksPerSec / 10 < time)

def wakeupIfRequired (dev : UartTtyDevice) (time : ℕ) : List ℕ × UartTtyDevice :=
  if dev.canReturnRead time then (dev.blocked, { dev with blocked := [] }) else ([], dev)

/-- The part of `handleTtyWakeup` for a task with a signal. -/
def handleTtyWakeup (dev : UartTtyDevice) (task : ℕ) : UartTtyDevice :=
  { dev with blocked := dev.blocked.erase task }

/-- The counter after the loop over the first `length` bytes. -/
def countRead (dev : UartTtyDevice) (length : ℕ) : UInt64 :=
  (List.range length).foldl (fun count i => if dev.ctrl.isDelim (dev.getBuffer i) then count - 1 else count)
    dev.line_delim_count

/-- A read of `length` bytes leaves the ones behind them. -/
def takeInput (dev : UartTtyDevice) (length : ℕ) : UartTtyDevice :=
  { dev with
    line_delim_count := dev.countRead length
    buffer_start := (dev.buffer_start + length) % dev.buffer_capacity
    buffer_count := dev.buffer_count - length }

/-- A `VEOF` at the front is dropped; the start of the buffer stays where it is. -/
def dropEof (dev : UartTtyDevice) : UartTtyDevice :=
  if dev.ctrl.mode icanon ∧ 0 < dev.buffer_count ∧ dev.getBuffer 0 = dev.ctrl.cc .veof then
    { dev with line_delim_count := dev.line_delim_count - 1, buffer_count := dev.buffer_count - 1 }
  else dev

def finishRead (dev : UartTtyDevice) (length : ℕ) : UartTtyDevice := (dev.takeInput length).dropEof

inductive ReadReturn where
  | success (data : List UInt8)
  | eintr
  | eagain
  /-- The task waits; it returns `EAGAIN` after it was woken. -/
  | waits

/-- The number of bytes that a read of `size` bytes returns. -/
def readLength (dev : UartTtyDevice) (size : ℕ) : ℕ :=
  min (if dev.ctrl.mode icanon then dev.bufferLineLength else dev.buffer_count) size

/-- The time of the last byte is the one of the first read that waits for it. -/
def startRead (dev : UartTtyDevice) (time : ℕ) : UartTtyDevice :=
  if ¬dev.ctrl.mode icanon ∧ dev.ctrl.cc .vtime ≠ 0 ∧ dev.blocked = [] then { dev with last_byte := time } else dev

/-- `signals` tells whether the process of the task has signals. -/
def uartTtyReadOrWait (dev : UartTtyDevice) (time task size : ℕ) (signals block : Bool) : ReadReturn × UartTtyDevice :=
  let dev := dev.startRead time
  if dev.canReturnRead time then
    let length := dev.readLength size
    (.success (Ring.readWrapped dev.buffer dev.buffer_capacity dev.buffer_start length), dev.finishRead length)
  else if signals then (.eintr, dev)
  else if block then (.waits, { dev with blocked := task :: dev.blocked })
  else (.eagain, dev)

def nextCapacity (capacity : ℕ) : ℕ :=
  min (if capacity = 0 then initialCapacity else capacity * 3 / 2) maxCapacity

/-- The part behind the old end must have its place in the new allocation. -/
def uartTtyResizeBuffer (dev : UartTtyDevice) : Option UartTtyDevice :=
  let capacity := nextCapacity dev.buffer_capacity
  if capacity = dev.buffer_capacity then some dev
  else if dev.buffer_capacity < dev.buffer_start + dev.buffer_count then
    let to_move := dev.buffer_start + dev.buffer_count - dev.buffer_capacity
    if dev.buffer_capacity + to_move ≤ capacity then
      some { dev with
        buffer := memmove dev.buffer dev.buffer_capacity 0 to_move
        buffer_capacity := capacity }
    else none
  else some { dev with buffer_capacity := capacity }

/-- Repeated for as long as the UART is busy, so that all the bytes are written. -/
def basicTtyWrite (dev : UartTtyDevice) (character : UInt8) : UartTtyDevice :=
  if character = carriageReturn ∧ dev.ctrl.output onocr then dev
  else
    let character := if character = carriageReturn ∧ dev.ctrl.output ocrnl then newline else character
    if character = newline ∧ dev.ctrl.output onlcr then
      { dev with written := dev.written ++ [carriageReturn, character] }
    else { dev with written := dev.written ++ [character] }

def isTerminalSpecialChar (c : UInt8) : Bool := c < 0x20 && 2 ≤ c && c != 9 && c != newline

def echoErase (dev : UartTtyDevice) : ℕ → UartTtyDevice
  | 0 => dev
  | n + 1 => echoErase (((dev.basicTtyWrite 8).basicTtyWrite 32).basicTtyWrite 8) n

def eraseLastCharacter (dev : UartTtyDevice) : UartTtyDevice :=
  if 0 < dev.buffer_count then
    let dev := { dev with buffer_count := dev.buffer_count - 1 }
    dev.echoErase (if dev.ctrl.mode echoctl ∧ isTerminalSpecialChar (dev.getBuffer dev.buffer_count) then 2 else 1)
  else dev

def mapInput (ctrl : Termios) (c : UInt8) : UInt8 :=
  if c = carriageReturn then if ctrl.input icrnl then newline else c
  else if c = newline then if ctrl.input inlcr then carriageReturn else c
  else c

def isErase (ctrl : Termios) (c : UInt8) : Bool := ctrl.mode echoe && ctrl.mode icanon && c == ctrl.cc .verase

def isKill (ctrl : Termios) (c : UInt8) : Bool := ctrl.mode echok && ctrl.mode icanon && c == ctrl.cc .vkill

/-- The signal that a byte stands for. -/
def inputSignal (ctrl : Termios) (c : UInt8) : Option TtySignal :=
  if ctrl.mode isig then
    if c = ctrl.cc .vintr then some .sigint
    else if c = ctrl.cc .vquit then some .sigquit
    else if c = ctrl.cc .vsusp then some .sigtstp
    else none
  else none

def echoInput (dev : UartTtyDevice) (c : UInt8) : UartTtyDevice :=
  if (dev.ctrl.mode echo ∨ dev.ctrl.mode echonl ∧ dev.ctrl.mode icanon ∧ c = newline) ∧
      (¬dev.ctrl.mode icanon ∨ c ≠ dev.ctrl.cc .veof) then
    if dev.ctrl.mode echoctl ∧ isTerminalSpecialChar c then (dev.basicTtyWrite 0x5e).basicTtyWrite (c + 0x40)
    else dev.basicTtyWrite c
  else dev

/-- The byte `c` is behind the contents already. -/
def appendInput (dev : UartTtyDevice) (c : UInt8) : UartTtyDevice :=
  echoInput { dev with
    line_delim_count := if dev.ctrl.isDelim c then dev.line_delim_count + 1 else dev.line_delim_count
    buffer_count := dev.buffer_count + 1 } c

/-- The part of `basicTtyRead` for a byte `c` that has been received. -/
def receive (dev : UartTtyDevice) (c : UInt8) : UartTtyDevice :=
  let new := (dev.buffer_start + dev.buffer_count) % dev.buffer_capacity
  if c = carriageReturn ∧ dev.ctrl.input igncr then { dev with buffer := write dev.buffer new [c] }
  else
    let c := mapInput dev.ctrl c
    let dev := { dev with buffer := write dev.buffer new [c] }
    if isErase dev.ctrl c then dev.eraseLastCharacter
    else if isKill dev.ctrl c then eraseLastCharacter^[dev.buffer_count] dev
    else match inputSignal dev.ctrl c with
      | some signal => { dev with sent := dev.sent ++ [(dev.process_group, signal)] }
      | none => dev.appendInput c

/-- Without room for one more byte the last one is lost, also when there is no byte to read. -/
def basicTtyRead (dev : UartTtyDevice) (byte : Option UInt8) : Option UartTtyDevice :=
  (if dev.buffer_count = dev.buffer_capacity then dev.uartTtyResizeBuffer else some dev).map fun dev =>
    let dev := if dev.buffer_count = dev.buffer_capacity then
      { dev with buffer_count := dev.buffer_count - 1 } else dev
    byte.elim dev dev.receive

def uartTtyDataReady (dev : UartTtyDevice) (time : ℕ) (bytes : List UInt8) : Option (List ℕ × UartTtyDevice) :=
  ((bytes.map some ++ [none]).foldlM basicTtyRead dev).map fun (dev : UartTtyDevice) =>
    wakeupIfRequired { dev with last_byte := time } time

def uartTtyWriteFunction (dev : UartTtyDevice) (bytes : List UInt8) : UartTtyDevice := bytes.foldl basicTtyWrite dev

inductive IoctlRequest where
  | tcgets
  | tcsetsf (ctrl : Termios)
  | tcsetsw (ctrl : Termios)
  | tcsets (ctrl : Termios)
  | tiocgpgrp
  | tiocspgrp (group : ℤ)
  | tcxonc
  | tcflsh
  | fionread
  | other

inductive IoctlReturn where
  | success
  | ctrl (ctrl : Termios)
  | int (value : ℤ)
  | enotsup
  | enotty

def setCtrl (dev : UartTtyDevice) (time : ℕ) (ctrl : Termios) : List ℕ × UartTtyDevice :=
  wakeupIfRequired { dev with ctrl := ctrl } time

/-- What the request returns, the tasks that are woken, and the device after it. -/
def basicUartTtyIoctlFunction (dev : UartTtyDevice) (time : ℕ) : IoctlRequest → IoctlReturn × List ℕ × UartTtyDevice
  | .tcgets => (.ctrl dev.ctrl, [], dev)
  | .tcsetsf ctrl => (.success, setCtrl { dev with buffer_count := 0 } time ctrl)
  | .tcsetsw ctrl => (.success, dev.setCtrl time ctrl)
  | .tcsets ctrl => (.success, dev.setCtrl time ctrl)
  | .tiocgpgrp => (.int dev.process_group, [], dev)
  | .tiocspgrp group => (.success, [], { dev with process_group := group })
  | .tcxonc => (.enotsup, [], dev)
  | .tcflsh => (.success, [], { dev with buffer_count := 0 })
  | .fionread => (.int dev.buffer_count, [], dev)
  | .other => (.enotty, [], dev)

end UartTtyDevice

/-- The settings of a new terminal. -/
def initialCtrl : Termios where
  iflag := icrnl
  oflag := onlcr ||| opost
  lflag := echo ||| echok ||| echoe ||| echonl ||| echoctl ||| icanon ||| isig
  cc
    | .verase => 0x7f
    | .veof => 0x04
    | .veol => 0x00
    | .vintr => 0x05
    | .vkill => 0x15
    | .vquit => 0x06
    | .vsusp => 0x14
    | .vtime => 0
    | .vmin => 1

def createUartTtyDevice (memory : Store) : UartTtyDevice where
  buffer := memory
  buffer_start := 0
  buffer_count := 0
  buffer_capacity := 0
  line_delim_count := 0
  last_byte := 0
  ctrl := initialCtrl
  process_group := 1
  blocked := []
  written := []
  sent := []

end SomeOs.Tty
