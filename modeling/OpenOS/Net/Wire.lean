/-
  Big-endian fields and the Internet checksum (kernel/src/net/mod.rs and tcp.rs,
  which have a copy each).
-/

import OpenOS.Base.Bytes

namespace OpenOS.Net

open Base

abbrev Ip := BitVec 32
abbrev Port := BitVec 16

/-! ## Fields -/

/-- `data[i]`, for code that has compared the length. -/
def byteAt (data : List Byte) (i : Nat) : Byte := data.getD i 0

def readU16Be (data : List Byte) (offset : Nat) : BitVec 16 :=
  byteAt data offset ++ byteAt data (offset + 1)

def readU32Be (data : List Byte) (offset : Nat) : BitVec 32 :=
  readU16Be data offset ++ readU16Be data (offset + 2)

/-- `to_be_bytes` of a u16. -/
def be16 (v : BitVec 16) : List Byte := [v.extractLsb' 8 8, v.extractLsb' 0 8]

/-- `to_be_bytes` of a u32. -/
def be32 (v : BitVec 32) : List Byte := be16 (v.extractLsb' 16 16) ++ be16 (v.extractLsb' 0 16)

/-! ## The Internet checksum -/

/-- The u32 sum of the 16-bit words, the last one filled up with a zero byte. -/
def sumWords (p : Profile) : Nat → List Byte → Option Nat
  | sum, a :: b :: rest => (p.fit 32 (sum + (a.toNat * 256 + b.toNat))).bind (sumWords p · rest)
  | sum, [a] => p.fit 32 (sum + a.toNat * 256)
  | sum, [] => some sum

/-- Turns of `while (sum >> 16) != 0`. -/
def foldCarry : Nat → Nat → Nat
  | 0, sum => sum
  | turns + 1, sum => if sum / 65536 = 0 then sum else foldCarry turns (sum % 65536 + sum / 65536)

/-- `internet_checksum`; `none` when the sum overflows. -/
def internetChecksum (p : Profile) (data : List Byte) : Option (BitVec 16) :=
  (sumWords p 0 data).map fun sum => ~~~BitVec.ofNat 16 (foldCarry 2 sum)

end OpenOS.Net
