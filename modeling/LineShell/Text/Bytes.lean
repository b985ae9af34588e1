import LineShell.Text.Basic

/-!
# Bytes

What streams and files hold. A text enters and leaves them in UTF-8; bytes that are no UTF-8 are
shown as replacement characters, one for each longest beginning of a sequence.

## The model

`encode` writes a text out. `decode` reads bytes from the front: `announced` tells from a first
byte how many further bytes belong to it and in which range the first of them lies, which rules
out the forms that are too long and the surrogates, and `continuation` counts how many of those
are really there. Where one is missing, the bytes up to it become one replacement character and
reading goes on behind them.

Decoding serves those who look at what a stream or a file holds. Nothing that the shell does
depends on it, so no theorem is about it: what is proved of files and channels is proved of their
bytes.
-/

namespace LineShell

/-- What a stream or a file holds. -/
abbrev Bytes := List UInt8

/-- The UTF-8 form of a text. -/
def encode (t : Text) : Bytes :=
  t.flatMap String.utf8EncodeChar

/-- Bytes at the front of a list that continue a sequence: how many of the first `count` lie in
the continuation range, given a range of its own for the first of them. -/
def continuation (count low high : Nat) : Bytes → Nat
  | [] => 0
  | b :: bs =>
    match count with
    | 0 => 0
    | n + 1 =>
      if low ≤ b.toNat && b.toNat ≤ high then 1 + continuation n 0x80 0xBF bs else 0

/-- What the first byte of a sequence announces: the number of further bytes, the bits that it
contributes, and the range of the second byte. -/
def announced (b : UInt8) : Option (Nat × Nat × Nat × Nat) :=
  let n := b.toNat
  if n < 0x80 then some (0, n, 0, 0)
  else if n < 0xC2 then none
  else if n < 0xE0 then some (1, n - 0xC0, 0x80, 0xBF)
  else if n = 0xE0 then some (2, 0, 0xA0, 0xBF)
  else if n = 0xED then some (2, 0xD, 0x80, 0x9F)
  else if n < 0xF0 then some (2, n - 0xE0, 0x80, 0xBF)
  else if n = 0xF0 then some (3, 0, 0x90, 0xBF)
  else if n < 0xF4 then some (3, n - 0xF0, 0x80, 0xBF)
  else if n = 0xF4 then some (3, 4, 0x80, 0x8F)
  else none

/-- The text of at most `fuel` sequences at the front of the bytes. -/
def decodeUpTo : Nat → Bytes → Text
  | 0, _ => []
  | _, [] => []
  | fuel + 1, b :: bs =>
    match announced b with
    | none => Char.ofNat 0xFFFD :: decodeUpTo fuel bs
    | some (more, bits, low, high) =>
      let found := continuation more low high bs
      let c :=
        if found = more then
          Char.ofNat ((bs.take more).foldl (fun n x => n * 64 + (x.toNat - 0x80)) bits)
        else
          Char.ofNat 0xFFFD
      c :: decodeUpTo fuel (bs.drop found)

/-- The text that bytes in UTF-8 stand for. -/
def decode (bs : Bytes) : Text :=
  decodeUpTo bs.length bs

end LineShell
