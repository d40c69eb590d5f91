import SomeOs.Process.Wait

/-! # Signals of a process

What a process does with each signal, and which signals it has blocked.
-/
namespace SomeOs.Signals
open Process (SIGCHLD)

/-- `SIGNONE` -/
abbrev sigNone : ℕ := 0
abbrev sigKill : ℕ := 9
abbrev sigAlrm : ℕ := 14
abbrev sigUrg : ℕ := 16
abbrev sigStop : ℕ := 17
abbrev sigTstp : ℕ := 18
abbrev sigCont : ℕ := 19
abbrev sigTtin : ℕ := 21
abbrev sigTtou : ℕ := 22
abbrev sigWinch : ℕ := 28
abbrev sigUsr1 : ℕ := 30
abbrev sigUsr2 : ℕ := 31

/-- `SIG_COUNT` -/
abbrev sigCount : ℕ := 32

/-- `SIG_DFL` -/
abbrev sigDfl : BitVec 64 := 0

/-- `SIG_IGN` -/
abbrev sigIgn : BitVec 64 := 1

abbrev saResethand : BitVec 32 := 1 <<< 2
abbrev saSiginfo : BitVec 32 := 1 <<< 4
abbrev saNodefer : BitVec 32 := 1 <<< 6

abbrev SignalSet := BitVec 64

structure SignalHandler where
  handler : BitVec 64
  mask : SignalSet
  flags : BitVec 32
  restorer : BitVec 64

def ignoredByDefault (signal : ℕ) : Bool :=
  signal == SIGCHLD || signal == sigUrg || signal == sigWinch || signal == sigUsr1 || signal == sigUsr2 ||
    signal == sigCont

def shouldIgnoreSignal (handlers : ℕ → SignalHandler) (signal : ℕ) : Bool :=
  signal != sigKill && signal != sigStop &&
    ((handlers signal).handler == sigIgn || ((handlers signal).handler == sigDfl && ignoredByDefault signal))

def signalBit (signal : ℕ) : SignalSet := 1 <<< (signal - 1)

def deliverable (mask : SignalSet) (signal : ℕ) : Bool :=
  signal == sigKill || signal == sigStop || mask &&& signalBit signal == 0

def queues (handlers : ℕ → SignalHandler) (signal : ℕ) : Bool :=
  sigNone < signal && signal < sigCount && !shouldIgnoreSignal handlers signal

/-- The handlers after `clearSignals`. -/
def clearHandlers (handlers : ℕ → SignalHandler) (signal : ℕ) : SignalHandler :=
  if signal < sigCount then
    { handlers signal with
      flags := 0
      handler := if (handlers signal).handler = sigIgn then sigIgn else sigDfl }
  else handlers signal

end SomeOs.Signals
