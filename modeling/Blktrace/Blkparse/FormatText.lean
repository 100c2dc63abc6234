import Blktrace.Lib.Printf
import Blktrace.Blkparse.DumpPdu
import Blktrace.Blkparse.Formats

/-!
# `blkparse_fmt.c`: the text

What `process_fmt` prints of a record, character by character: the default format of the action, or what
a format of the user's makes of it.
-/

namespace Blktrace.Blkparse

open Printf

/-- What is printed, and whether `blkparse` exits behind it; none where it reads beyond the payload, or
writes beyond a buffer. -/
abbrev Printed := Option (List Char × Bool)

namespace Printed

def text (s : List Char) : Printed := some (s, false)

/-- First the one, and then the other. -/
def andThen (r : Printed) (rest : Printed) : Printed :=
  r.bind fun (s, exits) => if exits then some (s, true) else rest.map fun (s', exits') => (s ++ s', exits')

end Printed

/-- What a line is printed with: `pci->cpu`, the names of the pids, the wall clock, and the buffer of
`dump_pdu`. -/
structure TextEnv where
  cpu : UInt32
  processName : UInt32 → Option (List Char)
  printTime : UInt64 → List Char
  pduP : List Char

/-! ## The fields -/

-- `1 << 2`, `1 << 3` and `1 << 11` to `1 << 13`, and `1 << 15`
def blkTcFlush : UInt32 := 0x4
def blkTcSync : UInt32 := 0x8
def blkTcAhead : UInt32 := 0x800
def blkTcMeta : UInt32 := 0x1000
def blkTcDiscard : UInt32 := 0x2000
def blkTcFua : UInt32 := 0x8000

/-- `fill_rwbs`. -/
def fillRwbs (t : BlkIoTrace) : List Char :=
  (if t.hasTc blkTcFlush then ['F'] else []) ++
  (if t.hasTc blkTcDiscard then ['D'] else if t.hasTc blkTcWrite then ['W'] else
    if t.bytes ≠ 0 then ['R'] else ['N']) ++
  (if t.hasTc blkTcFua then ['F'] else []) ++
  (if t.hasTc blkTcAhead then ['A'] else []) ++
  (if t.hasTc blkTcSync then ['S'] else []) ++
  (if t.hasTc blkTcMeta then ['M'] else [])

/-- `act`. -/
def Act.text : Act → List Char
  | .Q => ['Q'] | .I => ['I'] | .M => ['M'] | .F => ['F'] | .G => ['G'] | .S => ['S'] | .R => ['R']
  | .D => ['D'] | .C => ['C'] | .P => ['P'] | .U => ['U'] | .UT => ['U', 'T'] | .X => ['X'] | .B => ['B']
  | .A => ['A']

/-- A number that `%d` is given, of which it takes 32 bits. -/
def intText (x : UInt64) : List Char := sdec x.toUInt32.toInt32.toInt

def major (device : UInt32) : UInt64 := (device >>> 20).toUInt64

def minor (device : UInt32) : UInt64 := (device &&& 0xfffff).toUInt64

/-- `"%3d,%-3d"`. -/
def deviceText (device : UInt32) : List Char :=
  pad false 3 (intText (major device)) ++ [','] ++ pad true 3 (intText (minor device))

/-- `find_process_name`, as it is printed. -/
def nameText (env : TextEnv) (pid : UInt32) : List Char := (env.processName pid).getD "(null)".toList

/-- `dump_pdu`, none for no payload. -/
def dumpPduOf (env : TextEnv) (l : Line) : Option (Option (List Char)) :=
  if l.pduBuf.2 = 0 then some none
  else if l.pduBuf.1.length < l.pduBuf.2 then none
  else (dumpPduText env.pduP (l.pduBuf.1.take l.pduBuf.2)).map some

/-- The text of a field, for the conversions that are given the width. -/
def fieldText (env : TextEnv) (l : Line) : Char → List Char
  | 'a' => l.act.text
  | 'c' => intText env.cpu.toUInt64
  | 'C' => nameText env l.bit.pid
  | 'd' => fillRwbs l.bit
  | 'e' => udec l.bit.error.toNat
  | 'M' => intText (major l.bit.device)
  | 'm' => intText (minor l.bit.device)
  | 'n' => udec l.bit.tSec.toNat
  | 'N' => udec l.bit.bytes.toNat
  | 'p' => udec l.bit.pid.toNat
  | 's' => udec l.bit.sequence.toNat
  | 'S' => udec l.bit.sector.toNat
  | 'T' => intText (seconds l.bit.time)
  | 'u' => udec (l.elapsed / 1000).toNat
  | 'z' => env.printTime l.bit.time
  | field => [field]

/-- `print_field`. -/
def printFieldText (env : TextEnv) (l : Line) (field : Char) (minus hasW : Bool) (width : ℕ) : Printed :=
  let put (s : List Char) : Printed := .text (if hasW then pad minus width s else s)
  match field with
  | 'D' => .text (deviceText l.bit.device)
  | 'P' => (dumpPduOf env l).map fun p => (p.getD [], false)
  | 't' => .text (zeros (if hasW then width else 9) (udec (nanoSeconds l.bit.time).toNat))
  | 'u' => if l.elapsed = noElapsed then some ([], true) else put (fieldText env l 'u')
  | 'U' => (getPduInt l.bit.pdu).bind fun v => put (udec v.toNat)
  | field => put (fieldText env l field)

/-! ## Formats -/

/-- Where in a format `process_fmt` is. In a field, with what `parse_field` has found. -/
inductive FmtPos
  | text | percent | escape
  | field (minus hasW : Bool) (width : ℕ)

/-- The characters behind a backslash. -/
def escaped : Char → Option Char
  | 'b' => some (Char.ofNat 8)
  | 'n' => some '\n'
  | 'r' => some '\r'
  | 't' => some '\t'
  | _ => none

/-- `process_fmt` with a format, from a place of it on. -/
def formatText (env : TextEnv) (l : Line) : FmtPos → List Char → Printed
  | .text, [] => .text []
  | .text, c :: p =>
    if c = '%' then formatText env l .percent p
    else if c = '\\' then formatText env l .escape p
    else (Printed.text [c]).andThen (formatText env l .text p)
  | .percent, [] => .text ['%']
  | .percent, c :: p =>
    if c = '%' then (Printed.text ['%']).andThen (formatText env l .text p)
    else if c = '-' then formatText env l (.field true false 0) p
    else if c.isDigit then formatText env l (.field false true (c.toNat - '0'.toNat)) p
    else (printFieldText env l c false false 0).andThen (formatText env l .text p)
  | .field _ _ _, [] => .text []
  | .field minus hasW width, c :: p =>
    if c.isDigit then formatText env l (.field minus true (10 * width + (c.toNat - '0'.toNat))) p
    else (printFieldText env l c minus hasW width).andThen (formatText env l .text p)
  | .escape, [] => some ([], true)
  | .escape, c :: p =>
    match escaped c with
    | some c => (Printed.text [c]).andThen (formatText env l .text p)
    | none => some ([], true)

/-! ## The default formats -/

/-- The header: `"%3d,%-3d %2d %8d %5d.%09lu %5u %2s %3s "`. -/
def headerText (env : TextEnv) (l : Line) : List Char :=
  let t := l.bit
  deviceText t.device ++ [' '] ++ pad false 2 (intText env.cpu.toUInt64) ++ [' '] ++
    pad false 8 (sdec t.sequence.toInt32.toInt) ++ [' '] ++ pad false 5 (intText (seconds t.time)) ++ ['.'] ++
    zeros 9 (udec (nanoSeconds t.time).toNat) ++ [' '] ++ pad false 5 (udec t.pid.toNat) ++ [' '] ++
    pad false 2 l.act.text ++ [' '] ++ pad false 3 (fillRwbs t) ++ [' ']

/-- `"[%s]\n"`. -/
def nameLine (env : TextEnv) (l : Line) : List Char := ['['] ++ nameText env l.bit.pid ++ [']', '\n']

/-- `"[%d]\n"`. -/
def errorLine (l : Line) : List Char := ['['] ++ udec l.bit.error.toNat ++ [']', '\n']

/-- `"(%s) "`, if there is a payload. -/
def pduText? (p : Option (List Char)) : List Char :=
  match p with
  | none => []
  | some p => ['('] ++ p ++ [')', ' ']

/-- `"%llu + %u "`. -/
def rangeText (t : BlkIoTrace) : List Char :=
  udec t.sector.toNat ++ [' ', '+', ' '] ++ udec t.tSec.toNat ++ [' ']

/-- `"(%8llu) "`. -/
def elapsedText (l : Line) : List Char := ['('] ++ pad false 8 (udec l.elapsed.toNat) ++ [')', ' ']

/-- What `process_default` prints behind the header. -/
def bodyText (env : TextEnv) (l : Line) : Printed :=
  let t := l.bit
  match l.act with
  | .R | .C =>
    if t.hasTc blkTcPc then (dumpPduOf env l).map fun p => (pduText? p ++ errorLine l, false)
    else if l.elapsed ≠ noElapsed then
      .text ((if t.tSec ≠ 0 then rangeText t else udec t.sector.toNat ++ [' ']) ++ elapsedText l ++ errorLine l)
    else .text ((if t.tSec ≠ 0 then rangeText t else udec t.sector.toNat ++ [' ']) ++ errorLine l)
  | .D | .I | .Q | .B =>
    if t.hasTc blkTcPc then
      (dumpPduOf env l).map fun p => (udec t.bytes.toNat ++ [' '] ++ pduText? p ++ nameLine env l, false)
    else if l.elapsed ≠ noElapsed then
      .text ((if t.tSec ≠ 0 then rangeText t else []) ++ elapsedText l ++ nameLine env l)
    else .text ((if t.tSec ≠ 0 then rangeText t else []) ++ nameLine env l)
  | .M | .F | .G | .S => .text ((if t.tSec ≠ 0 then rangeText t else []) ++ nameLine env l)
  | .P => .text (nameLine env l)
  | .U | .UT => (getPduInt t.pdu).map fun v =>
    (['['] ++ nameText env t.pid ++ [']', ' '] ++ udec v.toNat ++ ['\n'], false)
  | .A => (getPduRemap t.pdu).map fun r =>
    (udec t.sector.toNat ++ [' ', '+', ' '] ++ udec t.tSec.toNat ++ [' ', '<', '-', ' ', '('] ++
      intText (major r.deviceFrom) ++ [','] ++ intText (minor r.deviceFrom) ++ [')', ' '] ++
      udec r.sectorFrom.toNat ++ ['\n'], false)
  | .X => (getPduInt t.pdu).map fun v =>
    (udec t.sector.toNat ++ [' ', '/', ' '] ++ udec v.toNat ++ [' '] ++ nameLine env l, false)

/-- `process_default`. -/
def processDefaultText (env : TextEnv) (l : Line) : Printed :=
  match l.act with
  | .A => (getPduRemap l.bit.pdu).bind fun r =>
    -- the record has the device of the remap from then on
    let l := { l with bit := { l.bit with device := r.deviceTo } }
    (Printed.text (headerText env l)).andThen (bodyText env l)
  | _ => (Printed.text (headerText env l)).andThen (bodyText env l)

/-- `process_fmt`. -/
def processFmtText (env : TextEnv) (fmts : Char → Option (List Char)) (l : Line) : Printed :=
  match fmts (Char.ofNat l.act.spec.toNat) with
  | none => processDefaultText env l
  | some fmt => formatText env l .text fmt

end Blktrace.Blkparse
