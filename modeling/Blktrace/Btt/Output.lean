import Blktrace.Btt.DevFilter
import Blktrace.Btt.Histograms
import Blktrace.Btt.LiveTimes
import Blktrace.Btt.Seeks
import Blktrace.Lib.Sections
import Mathlib.Data.Rat.Floor

/-!
# `btt`: the sections of the averages

`output_avgs`, as `output.c` has it: callbacks for the devices and the processes, which write to what they report
about, and totals in variables that are 0 when the program starts.

A `double` or a `float` is a rational number here. The texts of the headers, the second copies for
`easy_parse_avgs` and the files of `p_live_get` are left out, and files can be opened.
-/

namespace Blktrace.Btt

open SearchTree Sections

/-! ## The state at the end of `process` -/

/-- A quotient of `double`s, `none` if it is not finite. -/
def quot (a b : ℚ) : Option ℚ := if b = 0 then none else some (a / b)

/-- `struct avg_info`, with the average. -/
structure AvgOut extends AvgInfo where
  avg : ℚ := 0

/-- `struct seeki`, with the sum of the distances. -/
structure SeekHandle extends Seeki where
  totalSectors : ℚ := 0

/-- `struct q2d_info`. -/
structure Q2dInfo where
  nhistos : UInt64 := 0
  histos : List UInt64 := .replicate 10 0

/-- `struct d_info`. -/
structure DipOut extends DInfo where
  avgs : Avg → AvgOut := fun _ => {}
  q2qHandle : SeekHandle := {}
  seekHandle : SeekHandle := {}
  pLiveHandle : RbTree PLive := .nil
  q2dPriv : Option Q2dInfo := none
  startTime : ℚ := 0
  lastPlug : ℚ := 0
  pluggedTime : ℚ := 0
  endTime : ℚ := 0

/-- What is reported about. -/
structure Ended where
  dips : UInt32 → DipOut := fun _ => {}
  pips : ℕ → Avg → AvgOut := fun _ _ => {}
  allAvgs : Avg → AvgOut := fun _ => {}
  pLiveRoot : RbTree PLive := .nil
  qHisto : ℕ → UInt64 := fun _ => 0
  dHisto : ℕ → UInt64 := fun _ => 0

/-! ## The totals -/

/-- `merge_data`. -/
structure MergeData where
  nq : UInt64 := 0
  nd : UInt64 := 0
  blkmin : UInt64 := 0
  blkmax : UInt64 := 0
  total : UInt64 := 0

/-- `struct seek_mode_info`. -/
structure SeekModeInfo where
  mode : ℤ
  nseeks : ℕ

/-- `struct o_seek_info`. -/
structure SeekInfo where
  nseeks : ℕ := 0
  median : ℤ := 0
  mean : ℚ := 0
  head : List SeekModeInfo := []

/-- `struct plug_info`. -/
structure PlugInfo where
  nPlugs : ℕ := 0
  nUnplugsT : ℕ := 0
  tPercent : Option ℚ := some 0

/-- `struct nios_plug_info`, and the two counters before it. -/
structure NiosPlugInfo where
  nNiosUplugs : UInt64 := 0
  nNiosUplugsT : UInt64 := 0
  totNiosUp : UInt64 := 0
  totNiosUpT : UInt64 := 0

/-- `struct actQ_info`. -/
structure ActQInfo where
  tQs : UInt64 := 0
  tActQs : UInt64 := 0

/-- The state while `output_avgs` runs. -/
structure Out extends Ended where
  nMerges : ℕ := 0
  mergeData : MergeData := {}
  nSeeks : ℕ := 0
  seekInfo : SeekInfo := {}
  nPlugs : ℕ := 0
  plugInfo : PlugInfo := {}
  niosPlugInfo : NiosPlugInfo := {}
  nActQs : ℕ := 0
  actQInfo : ActQInfo := {}

namespace Out

/-- When it begins. -/
def start (e : Ended) : Out := { toEnded := e }

def setDip (s : Out) (d : UInt32) (dip : DipOut) : Out := { s with dips := Function.update s.dips d dip }

end Out

/-! ## Lines -/

/-- What a line is about. -/
inductive Title
  | dip (device : UInt32)
  | pip (i : ℕ)
  | avg (a : Avg)
  | total

/-- A line, with the values in it. -/
inductive Line
  | avg (ttl : Title) (min avg max : ℚ) (n : ℕ)
  | ohead (ttl : Title) (q2g g2i q2m i2d d2c : Option ℚ)
  | merge (ttl : Title) (nq nd : UInt64) (ratio : Option ℚ) (blkmin : UInt64) (blkavg : Option UInt64)
      (blkmax total : UInt64)
  | seek (ttl : Title) (nseeks : ℕ) (mean : ℚ) (median : ℤ) (mode : Option ℤ) (most : ℕ) (others : List ℤ)
      (more : ℕ)
  | plug (ttl : Title) (nplugs nplugsT : ℕ) (pct : Option ℚ)
  | nios (ttl : Title) (up upT : ℚ)
  | actQ (ttl : Title) (avg : Option ℚ)
  | live (ttl : Title) (info : PLiveInfo)
  | histo (q : Bool) (bkt : ℕ) (n : UInt64)
  | q2d (ttl : Title) (pcts : List (Option ℚ))

/-! ## Averages -/

/-- `__output_avg`. -/
def outputAvg (ttl : Title) (ap : AvgOut) : AvgOut × List Line :=
  if 0 < ap.n then
    let ap := { ap with avg := exactTime.bitTime ap.total / ap.n }
    (ap, [.avg ttl (exactTime.bitTime ap.min) ap.avg (exactTime.bitTime ap.max) ap.n])
  else (ap, [])

/-- What `__output_dip_avg` and `__output_pip_avg` do with the average. -/
def outputAvgOf (ttl : Title) (ap : AvgOut) : AvgOut × List Line :=
  if 0 < ap.n then outputAvg ttl { ap with avg := exactTime.bitTime ap.total / ap.n } else (ap, [])

/-- `__output_dip_avg`. -/
def outputDipAvgAt (a : Avg) (d : UInt32) : Printer Out Line := fun s =>
  let dip := s.dips d
  let (ap, lines) := outputAvgOf (.dip d) (dip.avgs a)
  (s.setDip d { dip with avgs := Function.update dip.avgs a ap }, lines)

/-- `output_dip_avg`. -/
def outputDipAvg (devices : List UInt32) (a : Avg) : Printer Out Line := each (outputDipAvgAt a) devices

/-- `__output_pip_avg`. -/
def outputPipAvgAt (a : Avg) (i : ℕ) : Printer Out Line := fun s =>
  let (ap, lines) := outputAvgOf (.pip i) (s.pips i a)
  ({ s with pips := Function.update s.pips i (Function.update (s.pips i) a ap) }, lines)

/-- `output_pip_avg`. -/
def outputPipAvg (procs : List ℕ) (a : Avg) : Printer Out Line := each (outputPipAvgAt a) procs

/-- A line of all devices. -/
def outputAllAvg (a : Avg) : Printer Out Line := fun s =>
  let (ap, lines) := outputAvg (.avg a) (s.allAvgs a)
  ({ s with allAvgs := Function.update s.allAvgs a ap }, lines)

/-- The averages that devices and processes have a section of. -/
def avgSecs : List Avg := [.q2qDm, .q2aDm, .q2cDm, .q2q, .q2a, .q2g, .s2g, .g2i, .q2m, .i2d, .d2c, .q2c]

def outputAllAvgs : Printer Out Line :=
  each outputAllAvg [.q2qDm, .q2aDm, .q2cDm, .q2q, .q2a, .q2g, .s2g, .g2i, .q2m, .i2d, .m2d, .d2c, .q2c]

/-! ## Overhead -/

/-- `struct __ohead_data`. -/
structure OheadData where
  total : UInt64 := 0
  n : ℕ := 0

/-- `struct ohead_data`: one for each average. -/
abbrev Oheads := Avg → OheadData

/-- `__update_odp`. -/
def updateOdp (dip : DipOut) (od : Oheads) (a : Avg) : Oheads :=
  Function.update od a ⟨(od a).total + (dip.avgs a).total, (od a).n + (dip.avgs a).n⟩

/-- `__output_dip_prep_ohead`. -/
def outputDipPrepOheadAt (d : UInt32) : Printer (Out × Oheads) Line :=
  onlyIf (fun x => 0 < ((x.1.dips d).avgs .q2c).n ∧ 0 < ((x.1.dips d).avgs .q2c).total) fun (s, od) =>
    let dip := s.dips d
    let pct (a : Avg) := quot (100 * (dip.avgs a).total.toNat) (dip.avgs .q2c).total.toNat
    ((s, [.q2g, .g2i, .q2m, .i2d, .d2c, .q2c].foldl (updateOdp dip) od),
      [.ohead (.dip d) (pct .q2g) (pct .g2i) (pct .q2m) (pct .i2d) (pct .d2c)])

/-- `OD_AVG`. -/
def odAvg (od : Oheads) (a : Avg) : Option ℚ :=
  if (od a).n = 0 then some 0 else (quot (od a).total.toNat (od .q2c).total.toNat).map (100 * ·)

/-- The line `Overall`. -/
def outputOheadAll (od : Oheads) : List Line :=
  if (od .q2g).n = 0 ∧ (od .g2i).n = 0 ∧ (od .q2m).n = 0 ∧ (od .i2d).n = 0 ∧ (od .d2c).n = 0 then []
  else [.ohead .total (odAvg od .q2g) (odAvg od .g2i) (odAvg od .q2m) (odAvg od .i2d) (odAvg od .d2c)]

/-- `output_dip_prep_ohead`. -/
def outputDipPrepOhead (devices : List UInt32) : Printer Out Line :=
  withLocal (fun _ => {}) (seq (each outputDipPrepOheadAt devices) (write fun x => outputOheadAll x.2))

/-! ## Merges -/

/-- What `__output_dip_merge_ratio` adds to the totals. -/
def MergeData.add (m : MergeData) (first : Bool) (dip : DipOut) : MergeData :=
  let blks := dip.avgs .blks
  let m := if first then { m with blkmin := blks.min, blkmax := blks.max } else m
  { nq := m.nq + dip.nQs
    nd := m.nd + dip.nDs
    total := m.total + blks.total
    blkmin := if blks.min < m.blkmin then blks.min else m.blkmin
    blkmax := if m.blkmax < blks.max then blks.max else m.blkmax }

/-- What `__output_dip_merge_ratio` writes of a device. -/
def outputMergeLine (d : UInt32) : Printer Out Line := fun s =>
  let dip := s.dips d
  let q2cN : ℚ := dip.nQs.toNat
  let d2cN : ℚ := dip.nDs.toNat
  let ratio := if q2cN < d2cN then some 1 else quot q2cN d2cN
  let blks := dip.avgs .blks
  let blksAvg : ℚ := blks.total.toNat / d2cN
  ({ s with nMerges := s.nMerges + 1, mergeData := s.mergeData.add (s.nMerges == 0) dip },
    [.merge (.dip d) dip.nQs dip.nDs ratio blks.min (some (.ofNat ⌊blksAvg⌋₊)) blks.max blks.total])

/-- `__output_dip_merge_ratio`. It raises `n_qs` in the device. -/
def outputDipMergeRatioAt (d : UInt32) : Printer Out Line :=
  onlyIf (fun s => ¬ ((s.dips d).nQs = 0 ∨ (s.dips d).nDs = 0))
    (seq (update fun s => let dip := s.dips d
        s.setDip d (if dip.nQs < dip.nDs then { dip with nQs := dip.nDs } else dip))
      (onlyIf (fun s => 0 < ((s.dips d).nQs.toNat : ℚ) ∧ 0 < ((s.dips d).nDs.toNat : ℚ)) (outputMergeLine d)))

/-- The line `TOTAL`; a division of integers by 0 gives none. -/
def outputMergeAll (nMerges : ℕ) (m : MergeData) : List Line :=
  if 1 < nMerges then
    [.merge .total m.nq m.nd (quot m.nq.toNat m.nd.toNat) m.blkmin
      (if m.nd = 0 then none else some (m.total / m.nd)) m.blkmax m.total]
  else []

/-- `output_dip_merge_ratio`. -/
def outputDipMergeRatio (devices : List UInt32) : Printer Out Line :=
  seq (each outputDipMergeRatioAt devices) (write fun s => outputMergeAll s.nMerges s.mergeData)

/-! ## Seeks -/

/-- `seeki_mean`. -/
def seekiMean (sip : SeekHandle) : ℚ := sip.totalSectors / sip.totSeeks

/-- The modes of the array, all of which were written. -/
def Mode.found (mp : Mode) : List ℤ := ((mp.modes.getD []).take mp.nmds).reduceOption

/-- A turn of the loop in `add_seek_mode_info`. -/
def addMode (most : ℕ) (head : List SeekModeInfo) (lp : ℤ) : List SeekModeInfo :=
  match head.findIdx? fun smip => smip.mode = lp with
  | some i => head.modify i fun smip => { smip with nseeks := smip.nseeks + most }
  | none => ⟨lp, most⟩ :: head

/-- A turn of the loop in `output_seek_mode_info`: the list of the most frequent ones. -/
def pickMode (newList : List SeekModeInfo) (this : SeekModeInfo) : List SeekModeInfo :=
  match newList with
  | [] => [this]
  | top :: rest =>
    if top.nseeks < this.nseeks then [this]
    else if this.nseeks = top.nseeks then
      match (top :: rest).find? fun p => p.mode = this.mode with
      | some p => [{ this with nseeks := this.nseeks + p.nseeks }]
      | none => this :: top :: rest
    else top :: rest

/-- `do_output_dip_seek_info`. A tree always has a mode. -/
def doOutputDipSeekInfo (handle : DipOut → SeekHandle) (d : UInt32) : Printer Out Line :=
  onlyIf (fun s => 0 < (handle (s.dips d)).totSeeks) fun s =>
    let sip := handle (s.dips d)
    let mean := seekiMean sip
    let median := seekiMedian sip.toSeeki
    let m := (seekiMode sip.toSeeki).getD {}
    let others := if 2 < m.nmds then [] else m.found.tail
    let more := if 2 < m.nmds then m.nmds - 1 else 0
    ({ s with
        nSeeks := s.nSeeks + 1
        seekInfo :=
          { nseeks := s.seekInfo.nseeks + sip.totSeeks
            mean := s.seekInfo.mean + sip.totSeeks * mean
            median := s.seekInfo.median + sip.totSeeks * median
            head := m.found.foldl (addMode m.mostSeeks) s.seekInfo.head } },
      [.seek (.dip d) sip.totSeeks mean median (some (m.found.headD 0)) m.mostSeeks others more])

/-- The line `Average` that `output_seek_mode_info` writes. The mode is none where it reads through a null
pointer. -/
def outputSeekModeInfo (sip : SeekInfo) : List Line :=
  let newList := sip.head.foldl pickMode []
  [.seek .total sip.nseeks (sip.mean / sip.nseeks) (sip.median.tdiv sip.nseeks) (newList.head?.map (·.mode))
    ((newList.head?.map (·.nseeks)).getD 0) [] newList.tail.length]

/-- `output_dip_seek_info` and `output_dip_q2q_seek_info`: the totals begin at 0, and the loop takes the list
apart. -/
def outputDipSeekInfo (devices : List UInt32) (handle : DipOut → SeekHandle) : Printer Out Line :=
  seq (update fun s => { s with nSeeks := 1, seekInfo := {} })
    (seq (each (doOutputDipSeekInfo handle) devices)
      (seq (write fun s => if 1 < s.nSeeks then outputSeekModeInfo s.seekInfo else [])
        (update fun s => if 1 < s.nSeeks then { s with seekInfo.head := [] } else s)))

/-! ## Plugs -/

/-- `unplug`. -/
def DipOut.unplug (dip : DipOut) (curTime : ℚ) : DipOut :=
  { dip with isPlugged := false, pluggedTime := dip.pluggedTime + (curTime - dip.lastPlug) }

/-- `dip_unplug`, for a device that is there. -/
def DipOut.dipUnplug (dip : DipOut) (curTime : ℚ) (niosUp : UInt64) : DipOut :=
  if dip.isPlugged then { dip with nplugs := dip.nplugs + 1, niosUp := dip.niosUp + niosUp }.unplug curTime
  else dip

/-- What `__dip_output_plug` writes of a device. -/
def outputPlugLine (d : UInt32) : Printer Out Line := fun s =>
  let dip := s.dips d
  let delta := dip.endTime - dip.startTime
  let pct := (quot dip.pluggedTime delta).map (100 * ·)
  ({ s with
      nPlugs := s.nPlugs + 1
      plugInfo :=
        { nPlugs := s.plugInfo.nPlugs + dip.nplugs
          nUnplugsT := s.plugInfo.nUnplugsT + dip.nplugsT
          tPercent := Option.map₂ (· + ·) s.plugInfo.tPercent pct } },
    [.plug (.dip d) dip.nplugs dip.nplugsT pct])

/-- `__dip_output_plug`. A device that is still plugged is unplugged. -/
def dipOutputPlugAt (d : UInt32) : Printer Out Line :=
  seq (update fun s => let dip := s.dips d
      s.setDip d (if dip.isPlugged then dip.dipUnplug dip.endTime 0 else dip))
    (onlyIf (fun s => 0 < (s.dips d).nplugs + (s.dips d).nplugsT) (outputPlugLine d))

/-- `__dip_output_plug_all`. -/
def dipOutputPlugAll (nPlugs : ℕ) (p : PlugInfo) : List Line :=
  [.plug .total (p.nPlugs / nPlugs) (p.nUnplugsT / nPlugs) (p.tPercent.map (· / nPlugs))]

/-- `__dip_output_plug_nios`. -/
def dipOutputPlugNiosAt (d : UInt32) : Printer Out Line := fun s =>
  let dip := s.dips d
  let up := dip.niosUp ≠ 0 ∧ dip.nplugs ≠ 0
  let upT := dip.niosUpt ≠ 0 ∧ dip.nplugsT ≠ 0
  let p := s.niosPlugInfo
  let p := if up then
    { p with
      nNiosUplugs := p.nNiosUplugs + .ofNat dip.nplugs
      totNiosUp := p.totNiosUp + dip.niosUp } else p
  let p := if upT then
    { p with
      nNiosUplugsT := p.nNiosUplugsT + .ofNat dip.nplugsT
      totNiosUpT := p.totNiosUpT + dip.niosUpt } else p
  ({ s with niosPlugInfo := p },
    [.nios (.dip d) (if up then dip.niosUp.toNat / dip.nplugs else 0)
      (if upT then dip.niosUpt.toNat / dip.nplugsT else 0)])

/-- `__dip_output_uplug_all`. -/
def dipOutputUplugAll (p : NiosPlugInfo) : List Line :=
  [.nios .total (if p.nNiosUplugs ≠ 0 then p.totNiosUp.toNat / p.nNiosUplugs.toNat else 0)
    (if p.nNiosUplugsT ≠ 0 then p.totNiosUpT.toNat / p.nNiosUplugsT.toNat else 0)]

/-- `output_plug_info`. -/
def outputPlugInfo (devices : List UInt32) : Printer Out Line :=
  seq (each dipOutputPlugAt devices)
    (seq (write fun s => if 1 < s.nPlugs then dipOutputPlugAll s.nPlugs s.plugInfo else [])
      (seq (each dipOutputPlugNiosAt devices)
        (write fun s =>
          if s.niosPlugInfo.nNiosUplugs ≠ 0 ∨ s.niosPlugInfo.nNiosUplugsT ≠ 0 then
            dipOutputUplugAll s.niosPlugInfo
          else [])))

/-! ## Active requests -/

/-- `__dip_output_actQ`. -/
def dipOutputActQAt (d : UInt32) : Printer Out Line :=
  onlyIf (fun s => 0 < (s.dips d).nQs ∧ remapperDev d = false) fun s =>
    let dip := s.dips d
    ({ s with
        nActQs := s.nActQs + 1
        actQInfo := { tQs := s.actQInfo.tQs + dip.nQs, tActQs := s.actQInfo.tActQs + dip.tActQ } },
      [.actQ (.dip d) (quot dip.tActQ.toNat dip.nQs.toNat)])

/-- `__dip_output_actQ_all`. -/
def dipOutputActQAll (p : ActQInfo) : List Line := [.actQ .total (quot p.tActQs.toNat p.tQs.toNat)]

/-- `output_actQ_info`. -/
def outputActQInfo (devices : List UInt32) : Printer Out Line :=
  seq (each dipOutputActQAt devices)
    (write fun s => if 1 < s.nActQs then dipOutputActQAll s.actQInfo else [])

/-! ## Active periods and histograms -/

/-- `output_p_live`: `__dip_output_p_live` for the devices and for the system. -/
def outputPLive (devices : List UInt32) : Printer Out Line :=
  seq (each (fun d => write fun s => [.live (.dip d) (pLiveGet (s.dips d).pLiveHandle)]) devices)
    (write fun s => [.live .total (pLiveGet s.pLiveRoot)])

/-- The lines of a histogram. -/
def histoLines (q : Bool) (histo : ℕ → UInt64) : List Line :=
  (List.range nHistBkts).map fun i => .histo q (min (i + 1) (nHistBkts - 1)) (histo i)

/-- `output_histos`, if there is a name for the output. -/
def outputHistos (named : Bool) : Printer Out Line :=
  write fun s => if named then histoLines true s.qHisto ++ histoLines false s.dHisto else []

/-- `q2d_display`. -/
def q2dDisplay (ttl : Title) (q2dp : Q2dInfo) : Line :=
  .q2d ttl (q2dp.histos.map fun n => quot (100 * n.toNat) q2dp.nhistos.toNat)

/-- `q2d_acc`. -/
def q2dAcc (ap tp : Q2dInfo) : Q2dInfo := ⟨ap.nhistos + tp.nhistos, List.zipWith (· + ·) ap.histos tp.histos⟩

/-- `struct __q2d`. -/
structure Q2dAll where
  q2dAll : Q2dInfo := {}
  n : ℕ := 0

/-- `q2d_ok`. -/
def q2dOk : Option Q2dInfo → Bool
  | none => false
  | some q2dp => decide (0 < q2dp.nhistos)

/-- `__output_q2d_histo`. -/
def outputQ2dHistoAt (d : UInt32) : Printer (Out × Q2dAll) Line :=
  onlyIf (fun x => q2dOk (x.1.dips d).q2dPriv) fun (s, q2dp) =>
    let priv := (s.dips d).q2dPriv.getD {}
    ((s, ⟨q2dAcc q2dp.q2dAll priv, q2dp.n + 1⟩), [q2dDisplay (.dip d) priv])

/-- `output_q2d_histo`. -/
def outputQ2dHisto (devices : List UInt32) : Printer Out Line :=
  withLocal {} (seq (each outputQ2dHistoAt devices)
    (write fun x => if 0 < x.2.n then [q2dDisplay .total x.2.q2dAll] else []))

/-! ## All sections -/

/-- The sections. -/
inductive Sec
  | pipAvg (a : Avg)
  | dipAvg (a : Avg)
  | allAvgs | prepOhead | mergeRatio | q2qSeek | dipSeek | plug | actQ | pLive | histos | q2dHisto
deriving DecidableEq

/-- What `output_avgs` looks at beside the state: two of the options, whether there is a name for the output,
and the devices and the processes that the callbacks are called for. -/
structure OutOptions where
  outputAllData : Bool
  exes : Option (List UInt8)
  named : Bool
  devices : List UInt32
  procs : List ℕ

namespace OutOptions

variable (o : OutOptions)

def print : Sec → Printer Out Line
  | .pipAvg a => outputPipAvg o.procs a
  | .dipAvg a => outputDipAvg o.devices a
  | .allAvgs => outputAllAvgs
  | .prepOhead => outputDipPrepOhead o.devices
  | .mergeRatio => outputDipMergeRatio o.devices
  | .q2qSeek => outputDipSeekInfo o.devices DipOut.q2qHandle
  | .dipSeek => outputDipSeekInfo o.devices DipOut.seekHandle
  | .plug => outputPlugInfo o.devices
  | .actQ => outputActQInfo o.devices
  | .pLive => outputPLive o.devices
  | .histos => outputHistos o.named
  | .q2dHisto => outputQ2dHisto o.devices

/-- The sections before the one about merges. -/
def firstSecs : List Sec :=
  (if o.outputAllData then (if o.exes ≠ some [] then avgSecs.map .pipAvg else []) ++ avgSecs.map .dipAvg
    else []) ++ [.allAvgs, .prepOhead]

/-- And those after the one about active requests. -/
def lastSecs : List Sec := [.pLive, .histos] ++ if o.outputAllData then [.q2dHisto] else []

def secs : List Sec := o.firstSecs ++ .mergeRatio :: [.q2qSeek, .dipSeek, .plug] ++ .actQ :: o.lastSecs

/-- `output_avgs`: each section with the lines that it writes. -/
def outputAvgs (e : Ended) : List (Sec × List Line) := outputs o.print o.secs (.start e)

end OutOptions

section

variable {σ ω : Type*}

/-- A callback for a device that `dip_foreach_out` looks up, with the lines so far. -/
def callAt (f : UInt32 → Printer σ ω) (dip : Option UInt32) (run : Option (σ × List ω)) : Option (σ × List ω) :=
  run.bind fun (s, lines) => dip.map fun d => ((f d s).1, lines ++ (f d s).2)

theorem foldl_callAt (f : UInt32 → Printer σ ω) (devices : List UInt32) (s : σ) (lines : List ω) :
    (devices.map some).foldl (fun run dip => callAt f dip run) (some (s, lines)) =
      some ((each f devices s).1, lines ++ (each f devices s).2) := by
  induction devices generalizing s lines with
  | nil => simp [each, skip]
  | cons d devices ih =>
    rw [List.map_cons, List.foldl_cons]
    refine (ih _ _).trans ?_
    simp [each, seq]

/-- **`dip_foreach_out`** calls a callback for the devices that are listed, one after the other. -/
theorem dipForeachOut_callAt (f : UInt32 → Printer σ ω) {trace : List UInt32} {devices : Option (List UInt8)}
    (h : ∀ d ∈ listed (.seen trace) devices, d ∈ trace) (s : σ) :
    dipForeachOut (.seen trace) devices (callAt f) (some (s, [])) =
      some (some (each f (listed (.seen trace) devices) s)) := by
  obtain ⟨ht, hmem⟩ := DevTable.indexed_seen trace
  have hin : ∀ d ∈ listed (.seen trace) devices, d ∈ (DevTable.seen trace).allDevs := by
    intro d hd
    exact (hmem d).mpr (h d hd)
  rw [dipForeachOut, foreachDevs_eq ht, ht.map_dipFind hin, foldl_callAt, List.nil_append]

end

end Blktrace.Btt
