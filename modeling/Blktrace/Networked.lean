import Blktrace.Server.Delivery
import Blktrace.Blkparse.Recording

/-!
# Tracing over the network

`blktrace -h` sends what its tracers read, `blktrace -l` stores it in a file for each device and CPU, and
`blkparse` takes the records out of the files. The client may be of the other byte order: its records are
converted at the very end, and its network headers on the way.
-/

namespace Blktrace

open Server Blkparse Blkparse.Fd

/-- What the server stores of the blocks that one connection sends for a file. -/
theorem Server.Delivery.stored {S : Tracer.Settings} {ndevs : ℕ} {c : NetClient} {conns : ℕ → Conn}
    {acts : List (Act (List UInt8))} (hd : Delivery c conns acts) (hsound : ∀ conn, (conns conn).Sound)
    (hserves : Runs.Along (Host.step S ndevs) (Serves S ndevs) {} acts) {conn : ℕ} {k : List UInt8 × ℕ}
    (halone : ∀ conn', conn' ≠ conn → (conns conn').blocksFor k = []) :
    (Runs.run (Host.step S ndevs) {} acts).files k = (conns conn).blocksFor k := by
  have hmine := hd.readsAs fun conn => ((conns conn).reads_sent_iff c).mpr (hsound conn)
  have hends := (run_halted_iff acts).mpr hserves
  have hfiles : (Runs.run (Host.step S ndevs) {} acts).files k = (msgs acts).flatMap (·.blockOf k) := by
    cases Host.phase (hd.client hmine) hends acts (List.prefix_refl acts) with
    | alive _ hi _ => exact hi.files k
    | done _ hi => exact hi.files k
  rw [hfiles, ← hd.flatMap_mine hmine conn k, Delivery.mine, flatMap_filter_of_nil]
  intro m hm hother
  have hnone := halone m.conn (by simpa using hother)
  rw [← hd.flatMap_mine hmine, List.flatMap_eq_nil_iff] at hnone
  exact hnone m (List.mem_filter.mpr ⟨hm, by simp⟩)

/-- **Tracing over the network.** What the tracers of a client flush is read back from the files of the server,
whatever the order in which the server takes the connections. -/
theorem network_tracing {S : Tracer.Settings} {ndevs : ℕ} {c : NetClient} {conns : ℕ → Conn}
    {acts : List (Act (List UInt8))} (hd : Delivery c conns acts) (hsound : ∀ conn, (conns conn).Sound)
    (hserves : Runs.Along (Host.step S ndevs) (Serves S ndevs) {} acts)
    {devs : List (List UInt8 × List Recording)} (hfiles : ∀ dev ∈ devs, dev.2 ≠ [])
    (hblocks : ∀ dev ∈ devs, ∀ cpu f, dev.2[cpu]? = some f → ∃ conn,
      (∀ conn', conn' ≠ conn → (conns conn').blocksFor (dev.1, cpu) = []) ∧
        (conns conn).blocksFor (dev.1, cpu) = f.bytes (!c.big))
    (hgood : ∀ dev ∈ devs, ∀ cpu f, dev.2[cpu]? = some f → Recording.Good (!c.big) cpu f)
    {o : Opts} (hb : 1 ≤ o.rbBatch) :
    ∃ s, doFile o (devs.map fun dev => (List.range dev.2.length).map fun cpu =>
        (Runs.run (Host.step S ndevs) {} acts).files (dev.1, cpu)) = some s ∧
      Given o (devs.map Prod.snd) s := by
  have hbytes : (devs.map fun dev => (List.range dev.2.length).map fun cpu =>
      (Runs.run (Host.step S ndevs) {} acts).files (dev.1, cpu)) =
      (devs.map Prod.snd).map (List.map (Recording.bytes (!c.big))) := by
    rw [List.map_map]
    refine List.map_congr_left fun dev hdev => List.ext_getElem (by simp) fun cpu hcpu hcpu' => ?_
    have hlt : cpu < dev.2.length := by simpa using hcpu
    obtain ⟨conn, halone, hconn⟩ := hblocks dev hdev cpu _ (List.getElem?_eq_getElem hlt)
    rw [List.getElem_map, List.getElem_range, hd.stored hsound hserves halone, hconn]
    exact (List.getElem_map _).symm
  have hgood' : ∀ files ∈ devs.map Prod.snd, ∀ cpu f, files[cpu]? = some f →
      Recording.Good (!c.big) cpu f := by
    intro files hmem
    obtain ⟨dev, hdev, rfl⟩ := List.mem_map.mp hmem
    exact hgood dev hdev
  have hfiles' : [] ∉ devs.map Prod.snd := by
    intro hnil
    obtain ⟨dev, hdev, heq⟩ := List.mem_map.mp hnil
    exact hfiles dev hdev heq
  obtain ⟨raws, hstands, hmap⟩ := stands_recordings hgood'
  rw [hbytes]
  exact given_of_stands hb hfiles' hgood' hmap hstands

/-- A record of a big-endian client. -/
def oneRecord : Conn :=
  oneBlock ((queueRecord 5 0 1 10).image true) (by decide) (by decide)

def oneDevice : List (List UInt8 × List Recording) := [(sda.chars, [{ records := [queueRecord 5 0 1 10] }])]

theorem network_tracing_one :
    ∃ s, doFile {} (oneDevice.map fun dev => (List.range dev.2.length).map fun cpu =>
        (Runs.run (Host.step defaults 0) {} (takes client oneRecord)).files (dev.1, cpu)) = some s ∧
      Given {} (oneDevice.map Prod.snd) s := by
  have hsound : ∀ conn, (alone oneRecord conn).Sound := by
    intro conn
    cases conn with
    | zero => exact List.forall_mem_singleton.mpr (by decide)
    | succ conn => exact fun it hit => absurd hit List.not_mem_nil
  have hgood : Recording.Good false 0 { records := [queueRecord 5 0 1 10] } := by
    refine ⟨fun t ht => ?_, .inl (by decide), .inl (by decide), by decide, by decide⟩
    rw [List.mem_singleton.mp ht]
    exact ⟨by decide, by decide⟩
  have hserves := (@run_halted_iff _ _ defaults 0 (takes client oneRecord)).mp (by decide +kernel)
  refine network_tracing (delivery_alone client (List.cons_ne_nil _ _)) hsound hserves (fun dev hdev => ?_)
    (fun dev hdev cpu f hf => ?_) (fun dev hdev cpu f hf => ?_) (by decide)
  all_goals obtain rfl := List.mem_singleton.mp hdev
  · exact List.cons_ne_nil _ _
  · rcases cpu with _ | cpu
    · obtain rfl := Option.some.inj hf
      refine ⟨0, fun conn' hne => ?_, by decide⟩
      cases conn' with
      | zero => exact absurd rfl hne
      | succ conn' => rfl
    · cases hf
  · rcases cpu with _ | cpu
    · obtain rfl := Option.some.inj hf
      exact hgood
    · cases hf

end Blktrace
