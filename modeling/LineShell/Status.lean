import LineShell.Text.Basic

/-!
# Statuses

What every part of the shell answers with: a number, or the wish to end the session. A forked
branch can only report a number of one byte, its exit code.

## The model

* `Status.code` holds an exit code, or a number outside that range where no process was asked:
  `-1` for a child that a signal ended.
* `Status.terminate` is the answer of `exit` and `quit`. It is passed on by every operator that
  runs its sides in the running process, and a child that ends with it exits with a code of its
  own.
* `Ending.ofRaw` decodes what the system reports of a child: the low seven bits tell whether it
  exited, was killed or was stopped, the second byte holds its exit code. `exitedRaw` encodes an
  exit, and the two fit together (`Ending.ofRaw_exitedRaw`).

Numbers wrap around at 256 on their way through an exit code (`Status.exitCode`), so what a parent
learns of a negative number is not that number.
-/

namespace LineShell

/-- The outcome of a command. -/
inductive Status where
  /-- An exit code, or `-1` for a process that did not exit. -/
  | code (n : Int)
  /-- The session is to end. -/
  | terminate
  deriving DecidableEq, Repr

namespace Status

/-- All went well. -/
def success : Status := .code 0

/-- Something failed: also the status of a setup that could not be made. -/
def failure : Status := .code 1

/-- A child was ended by a signal. No exit code is negative, so this one stands apart. -/
def signaled : Status := .code (-1)

/-- A line that could not be read. -/
def malformed : Status := .code 2

/-- The exit code of a branch that asked to end the session. -/
def terminateCode : Nat := 156

/-- Whether the status asks to end the session. -/
def isTerminate : Status → Bool
  | .terminate => true
  | .code _ => false

/-- The one byte by which a process reports a status: numbers wrap around at 256. -/
def exitCode : Status → Nat
  | .terminate => terminateCode
  | .code n => (n % 256).toNat

/-- A status as a message shows it. -/
def shown : Status → Text
  | .code n => intText n
  | .terminate => "ShellSignal.TERMINATE".toList

/-- An exit code is a byte. -/
theorem exitCode_lt (s : Status) : s.exitCode < 256 := by
  cases s with
  | code n => simp only [exitCode]; omega
  | terminate => decide

/-- A byte is its own exit code. -/
theorem exitCode_code_of_lt (n : Nat) (h : n < 256) : (code n).exitCode = n := by
  simp only [exitCode]; omega

end Status

/-! ### Raw wait statuses -/

/-- What a raw wait status says about the end of a process. -/
inductive Ending where
  /-- It exited with a code. -/
  | exited (code : Nat)
  /-- A signal killed it. -/
  | killed (signal : Nat)
  /-- It was stopped. -/
  | stopped
  deriving DecidableEq, Repr

/-- Decodes a raw wait status: the low seven bits tell the kind, the second byte the code. -/
def Ending.ofRaw (raw : Nat) : Ending :=
  if raw % 128 = 0 then .exited (raw / 256 % 256)
  else if raw % 128 = 127 then .stopped
  else .killed (raw % 128)

/-- The raw wait status of a process that exits with a code. -/
def exitedRaw (code : Nat) : Nat :=
  code % 256 * 256

/-- The status that an ending stands for. -/
def Ending.status : Ending → Status
  | .exited code => .code code
  | .killed _ => .signaled
  | .stopped => .signaled

@[simp] theorem Ending.ofRaw_exitedRaw (code : Nat) :
    Ending.ofRaw (exitedRaw code) = .exited (code % 256) := by
  unfold ofRaw exitedRaw
  have h : code % 256 * 256 % 128 = 0 := by omega
  simp only [h, if_true]
  congr 1
  omega

end LineShell
