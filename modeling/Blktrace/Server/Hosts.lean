import Blktrace.Lib.EachSafe
import Blktrace.Server.Host

/-!
# `blktrace.c`: the server, with all its hosts

The rounds of `poll`. Hosts come with their first connection and go with all of them, in the midst of
the loop over the connections: then the loop is left, and what is still readable waits for the next
round. The entries of `pfds` are set at the beginning of a round; the one that a connection adds
within it holds what the memory held.
-/

namespace Blktrace.Server

open Tracer

/-- `struct cl_conn`. Its `ncpus` is with the host. -/
structure ClConn (α : Type*) where
  fd : ℕ
  ch : α
deriving DecidableEq

/-- `struct cl_host`, as the server finds it. -/
structure ClHost (α : Type*) where
  clInAddr : α
  /-- By their descriptors. -/
  connList : List ℕ := []
  connects : ℤ := 0

/-- What `net_get_header` leads to: nothing there, a header that is short or has no magic, or one that
is valid, with what comes behind it. -/
inductive Input (ν : Type*)
  | eof
  | bad
  | message (hdr : NetHdr ν) (data : List UInt8) (env : Env)

/-- `struct net_server_s`. -/
structure NetServer (α ν : Type*) where
  listenFd : ℕ
  chList : List (ClHost α) := []
  nchs : ℤ := 0
  connList : List (ClConn α) := []
  connects : ℤ := 0
  /-- The `fd` of the entries of `pfds`, none where it was not set. -/
  pfds : List (Option ℕ) := [none]
  /-- What there is of a host at an address, and what the hosts before it left behind. -/
  hosts : α → Host ν := fun _ => {}
  /-- Something that was freed is used, or an entry of `pfds` that was not set for what it is read for. -/
  stray : Bool := false
  /-- Behind an `exit`, or behind the loop. -/
  halted : Bool := false

/-- What a round meets with. -/
structure Round (α ν : Type*) where
  /-- What `poll` returns. -/
  events : ℤ
  eintr : Bool := false
  /-- `revents` of the entries, the one included that `poll` was not given. -/
  revents : ℕ → UInt16
  /-- What `my_accept` returns, with `ns->addr`. -/
  accepted : Option (α × ℕ) := none
  /-- By descriptor. -/
  input : ℕ → Input ν := fun _ => .eof

/-- `POLLIN`. -/
def pollin (revents : UInt16) : Bool := revents &&& 1 ≠ 0

namespace NetServer

variable {α ν : Type*} [DecidableEq α] [DecidableEq ν]

def exit (ns : NetServer α ν) : NetServer α ν := { ns with halted := true }

def astray (ns : NetServer α ν) : NetServer α ν := { ns with stray := true, halted := true }

/-- `realloc` of `pfds`. -/
def reallocPfds (ns : NetServer α ν) : NetServer α ν :=
  let n := (ns.connects + 1).toNat
  { ns with pfds := (ns.pfds ++ List.replicate n none).take n }

/-- The host at an address, changed. -/
def modifyHost (ns : NetServer α ν) (a : α) (f : ClHost α → ClHost α) : NetServer α ν :=
  { ns with chList := ns.chList.map fun ch => if ch.clInAddr = a then f ch else ch }

/-- `ch_add_connection`. -/
def chAddConnection (ns : NetServer α ν) (a : α) (fd : ℕ) : NetServer α ν :=
  let h := ns.hosts a
  let ns := ns.modifyHost a fun ch =>
    { ch with connList := ch.connList ++ [fd], connects := ch.connects + 1 }
  reallocPfds { ns with
    hosts := Function.update ns.hosts a { h with conns := Function.update h.conns fd (some (-1)) }
    connList := ns.connList ++ [⟨fd, a⟩]
    connects := ns.connects + 1 }

/-- `ch_rem_connection`. -/
def chRemConnection (ns : NetServer α ν) (a : α) (fd : ℕ) : NetServer α ν :=
  let ns := ns.modifyHost a fun ch =>
    { ch with connList := ch.connList.erase fd, connects := ch.connects - 1 }
  reallocPfds { ns with
    connList := ns.connList.erase ⟨fd, a⟩
    connects := ns.connects - 1 }

/-- `net_find_client_host`. -/
def netFindClientHost (ns : NetServer α ν) (a : α) : Option (ClHost α) :=
  ns.chList.find? fun ch => ch.clInAddr = a

/-- `net_add_client_host`. -/
def netAddClientHost (ns : NetServer α ν) (a : α) : NetServer α ν :=
  let h := ns.hosts a
  { ns with
    chList := ns.chList ++ [{ clInAddr := a }]
    nchs := ns.nchs + 1
    hosts := Function.update ns.hosts a { h with conns := fun _ => none, devpaths := [], clOpens := 0 } }

/-- The connections of the host at an address. -/
def connsOf (a : α) (ns : NetServer α ν) : List ℕ :=
  ((ns.netFindClientHost a).map ClHost.connList).getD []

/-- `net_ch_remove`; the files are closed with the host itself. -/
def netChRemove (ns : NetServer α ν) (a : α) : NetServer α ν :=
  let ns := EachSafe.forEachSafe (connsOf a) (fun ns fd => (ns.chRemConnection a fd, false)) astray ns
  { ns with
    chList := ns.chList.eraseP fun ch => ch.clInAddr = a
    nchs := ns.nchs - 1 }

/-- `net_add_connection`. -/
def netAddConnection (ns : NetServer α ν) : Option (α × ℕ) → NetServer α ν
  | none => ns
  | some (a, fd) =>
    let ns := if (ns.netFindClientHost a).isSome then ns else ns.netAddClientHost a
    ns.chAddConnection a fd

variable (S : Settings) (ndevs : ℕ)

/-- `net_client_data`, with what it returns. Where it does not return, the loop is left all the same. -/
def netClientData (ns : NetServer α ν) (nc : ClConn α) : Input ν → NetServer α ν × Bool
  | .eof => (ns, false)
  | .bad => (ns.exit, true)
  | .message hdr data env =>
    let h := ns.hosts nc.ch
    match h.conns nc.fd with
    | none => (ns.astray, true)
    | some ncpus =>
      let h' := h.netClientData S ndevs ncpus { conn := nc.fd, hdr := hdr, data := data, env := env }
      let ns := { ns with hosts := Function.update ns.hosts nc.ch h' }
      if h'.halted then (ns.exit, true)
      else if h'.removed ≠ h.removed then (ns.netChRemove nc.ch, true)
      else (ns, false)

/-- One pass of `handle_client_data`, with the place in `pfds` and the events that are left. -/
def handleConn (r : Round α ν) (s : NetServer α ν × ℕ × ℤ) (nc : ClConn α) :
    (NetServer α ν × ℕ × ℤ) × Bool :=
  let (ns, k, events) := s
  if ns.pfds[k]? ≠ some (some nc.fd) then ((ns.astray, k, events), true)
  else if pollin (r.revents k) then
    let (ns, closed) := ns.netClientData S ndevs nc (r.input nc.fd)
    if closed then ((ns, k, events), true)
    else ((ns, k + 1, events - 1), events - 1 = 0)
  else ((ns, k + 1, events), false)

/-- `handle_client_data`. -/
def handleClientData (ns : NetServer α ν) (r : Round α ν) (events : ℤ) : NetServer α ν :=
  (EachSafe.forEachSafe (fun s => s.1.connList) (handleConn S ndevs r)
    (fun s => (s.1.astray, s.2)) (ns, 1, events)).1

/-- `net_setup_pfds`. -/
def netSetupPfds (ns : NetServer α ν) : NetServer α ν :=
  let fds := some ns.listenFd :: ns.connList.map fun nc => some nc.fd
  if fds.length ≤ ns.pfds.length then { ns with pfds := fds ++ ns.pfds.drop fds.length }
  else ns.astray

/-- A turn of `net_server_handle_connections`. -/
def round (ns : NetServer α ν) (r : Round α ν) : Option (NetServer α ν) :=
  if ns.halted then none
  else
    let ns := ns.netSetupPfds
    if ns.pfds.length < ns.connects + 1 then some ns.astray
    else if r.events < 0 then some (if r.eintr then ns else ns.exit)
    else if 0 < r.events then
      if pollin (r.revents 0) then
        let ns := ns.netAddConnection r.accepted
        some (if r.events - 1 ≠ 0 then ns.handleClientData S ndevs r (r.events - 1) else ns)
      else some (ns.handleClientData S ndevs r r.events)
    else some ns

end NetServer

end Blktrace.Server
