import Mathlib

/-!
# `jhash.h`: Jenkins' hash

The keys of the process tables: a pid (`jhash_1word`) or the 16 bytes of a name (`jhash`).
-/

namespace Blktrace

def rot (x k : UInt32) : UInt32 := (x <<< k) ||| (x >>> (32 - k))

/-- `__jhash_mix`. -/
def jhashMix (a b c : UInt32) : UInt32 × UInt32 × UInt32 :=
  let a := a - c; let a := a ^^^ rot c 4; let c := c + b
  let b := b - a; let b := b ^^^ rot a 6; let a := a + c
  let c := c - b; let c := c ^^^ rot b 8; let b := b + a
  let a := a - c; let a := a ^^^ rot c 16; let c := c + b
  let b := b - a; let b := b ^^^ rot a 19; let a := a + c
  let c := c - b; let c := c ^^^ rot b 4; let b := b + a
  (a, b, c)

/-- `__jhash_final`, with the `c` it leaves. -/
def jhashFinal (a b c : UInt32) : UInt32 :=
  let c := c ^^^ b; let c := c - rot b 14
  let a := a ^^^ c; let a := a - rot c 11
  let b := b ^^^ a; let b := b - rot a 25
  let c := c ^^^ b; let c := c - rot b 16
  let a := a ^^^ c; let a := a - rot c 4
  let b := b ^^^ a; let b := b - rot a 14
  let c := c ^^^ b; c - rot b 24

def jhashGoldenRatio : UInt32 := 0xdeadbeef

/-- Four bytes of the key; those past its end count for nothing. -/
def jhashWord (k : List UInt8) (i : Nat) : UInt32 :=
  (k.getD i 0).toUInt32 + ((k.getD (i + 1) 0).toUInt32 <<< (8 : UInt32)) +
    ((k.getD (i + 2) 0).toUInt32 <<< (16 : UInt32)) +
    ((k.getD (i + 3) 0).toUInt32 <<< (24 : UInt32))

/-- The `while` of `jhash` and its last block, for at most `fuel` blocks of 12 bytes. -/
def jhashBlocks : Nat → List UInt8 → UInt32 → UInt32 → UInt32 → UInt32
  | 0, _, _, _, c => c
  | fuel + 1, k, a, b, c =>
    if k.length = 0 then c
    else
      let a := a + jhashWord k 0
      let b := b + jhashWord k 4
      let c := c + jhashWord k 8
      if 12 < k.length then
        let (a, b, c) := jhashMix a b c
        jhashBlocks fuel (k.drop 12) a b c
      else jhashFinal a b c

/-- `jhash` of all bytes of `key`. -/
def jhash (key : List UInt8) (initval : UInt32) : UInt32 :=
  let i := jhashGoldenRatio + UInt32.ofNat key.length + initval
  jhashBlocks key.length key i i i

/-- `jhash_1word`. -/
def jhash1Word (a initval : UInt32) : UInt32 :=
  jhashFinal (jhashGoldenRatio + initval) (jhashGoldenRatio + initval)
    (a + (jhashGoldenRatio + initval))

end Blktrace
