import Blktrace.Blkparse.Basic

/-!
# The skip list of a CPU

The sequence numbers that never came, kept as intervals. The list is walked from `skips_tail`
backwards, so that is the order here; a new entry becomes the tail.
-/

namespace Blktrace.Blkparse

/-- `struct skip_info`, without the links. -/
structure SkipInfo where
  start : UInt64
  stop : UInt64
deriving DecidableEq, Repr

/-- The loop of `insert_skip`: the first entry the new interval joins on to, if any, is grown. -/
def joinSkip (start stop : UInt64) : List SkipInfo → Option (List SkipInfo)
  | [] => none
  | sip :: rest =>
    if stop = sip.start - 1 then some ({ sip with start := start } :: rest)
    else if start = sip.stop + 1 then some ({ sip with stop := stop } :: rest)
    else (joinSkip start stop rest).map (sip :: ·)

/-- `insert_skip`. -/
def insertSkip (start stop : UInt64) (sips : List SkipInfo) : List SkipInfo :=
  (joinSkip start stop sips).getD (⟨start, stop⟩ :: sips)

/-- `IN_SKIP`. -/
def SkipInfo.inSkip (sip : SkipInfo) (seq : UInt64) : Bool :=
  decide (sip.start ≤ seq) && decide (seq ≤ sip.stop)

/-- The walk of `check_current_skips`: the list with the entry that holds `seq` changed, and the
arguments of the `insert_skip` that follows, if one does. Its second argument is `sip->end` as the
line before has just set it. -/
def punchSkip (seq : UInt64) : List SkipInfo → Option (List SkipInfo × Option (UInt64 × UInt64))
  | [] => none
  | sip :: rest =>
    if sip.inSkip seq then
      if sip.start = seq then
        if sip.stop = seq then some (rest, none)
        else some ({ sip with start := sip.start + 1 } :: rest, none)
      else if sip.stop = seq then some ({ sip with stop := sip.stop - 1 } :: rest, none)
      else some ({ sip with stop := seq - 1 } :: rest, some (seq + 1, seq - 1))
    else (punchSkip seq rest).map fun r => (sip :: r.1, r.2)

/-- `check_current_skips`: the list it leaves where it returns 1. -/
def checkCurrentSkips (seq : UInt64) (sips : List SkipInfo) : Option (List SkipInfo) :=
  (punchSkip seq sips).map fun r =>
    match r.2 with
    | none => r.1
    | some (start, stop) => insertSkip start stop r.1

end Blktrace.Blkparse
