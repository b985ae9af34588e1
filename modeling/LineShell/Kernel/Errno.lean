import LineShell.Text.Basic

/-!
# Error numbers

The causes for which a system call fails, with the number, the name and the text of each. The
calls of the model come to some of them by themselves; the others occur where a failure is
planned, and what the shell does about a failed call it does for every one of them. Of a few it
asks which it is: whether a program is only not there decides between two exit codes.
-/

namespace LineShell

/-- Why a system call failed. -/
inductive Errno where
  /-- The operation is not permitted. -/
  | notPermitted
  /-- There is no such file or directory. -/
  | noEntry
  /-- The device failed. -/
  | deviceFailed
  /-- The argument list is too long. -/
  | listTooLong
  /-- The file is no program. -/
  | notExecutable
  /-- The descriptor is not open, or not open for this. -/
  | badDescriptor
  /-- There is no child to wait for. -/
  | noChild
  /-- A resource is missing for the moment. -/
  | tryAgain
  /-- There is no memory left. -/
  | noMemory
  /-- The file's mode forbids it. -/
  | accessDenied
  /-- A part of the path is no directory. -/
  | notDirectory
  /-- The file is a directory. -/
  | isDirectory
  /-- The system has too many open files. -/
  | systemFilesFull
  /-- The process has too many open files. -/
  | tooManyFiles
  /-- The program is being written to. -/
  | textBusy
  /-- The device is full. -/
  | noSpace
  /-- A part of the path is too long. -/
  | nameTooLong
  /-- Too many links were followed. -/
  | tooManyLinks
  deriving DecidableEq, Repr

namespace Errno

/-- All error numbers. -/
def all : List Errno :=
  [.notPermitted, .noEntry, .deviceFailed, .listTooLong, .notExecutable, .badDescriptor, .noChild,
   .tryAgain, .noMemory, .accessDenied, .notDirectory, .isDirectory, .systemFilesFull,
   .tooManyFiles, .textBusy, .noSpace, .nameTooLong, .tooManyLinks]

/-- The number. -/
def number : Errno → Nat
  | .notPermitted => 1
  | .noEntry => 2
  | .deviceFailed => 5
  | .listTooLong => 7
  | .notExecutable => 8
  | .badDescriptor => 9
  | .noChild => 10
  | .tryAgain => 11
  | .noMemory => 12
  | .accessDenied => 13
  | .notDirectory => 20
  | .isDirectory => 21
  | .systemFilesFull => 23
  | .tooManyFiles => 24
  | .textBusy => 26
  | .noSpace => 28
  | .nameTooLong => 36
  | .tooManyLinks => 40

/-- The conventional short name. -/
def name : Errno → Text
  | .notPermitted => "EPERM".toList
  | .noEntry => "ENOENT".toList
  | .deviceFailed => "EIO".toList
  | .listTooLong => "E2BIG".toList
  | .notExecutable => "ENOEXEC".toList
  | .badDescriptor => "EBADF".toList
  | .noChild => "ECHILD".toList
  | .tryAgain => "EAGAIN".toList
  | .noMemory => "ENOMEM".toList
  | .accessDenied => "EACCES".toList
  | .notDirectory => "ENOTDIR".toList
  | .isDirectory => "EISDIR".toList
  | .systemFilesFull => "ENFILE".toList
  | .tooManyFiles => "EMFILE".toList
  | .textBusy => "ETXTBSY".toList
  | .noSpace => "ENOSPC".toList
  | .nameTooLong => "ENAMETOOLONG".toList
  | .tooManyLinks => "ELOOP".toList

/-- What is said of the failure. -/
def reason : Errno → Text
  | .notPermitted => "Operation not permitted".toList
  | .noEntry => "No such file or directory".toList
  | .deviceFailed => "Input/output error".toList
  | .listTooLong => "Argument list too long".toList
  | .notExecutable => "Exec format error".toList
  | .badDescriptor => "Bad file descriptor".toList
  | .noChild => "No child processes".toList
  | .tryAgain => "Resource temporarily unavailable".toList
  | .noMemory => "Cannot allocate memory".toList
  | .accessDenied => "Permission denied".toList
  | .notDirectory => "Not a directory".toList
  | .isDirectory => "Is a directory".toList
  | .systemFilesFull => "Too many open files in system".toList
  | .tooManyFiles => "Too many open files".toList
  | .textBusy => "Text file busy".toList
  | .noSpace => "No space left on device".toList
  | .nameTooLong => "File name too long".toList
  | .tooManyLinks => "Too many levels of symbolic links".toList

/-- The error number with a short name. -/
def ofName? (t : Text) : Option Errno :=
  all.find? fun e => e.name == t

end Errno

end LineShell
