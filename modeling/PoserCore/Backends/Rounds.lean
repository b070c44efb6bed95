import PoserCore.Backends.Agree
import PoserCore.Lib.Machine

/-!
# One round of the event loop

`processEvents` raises `readyRead` and `readyWrite` for what the kernel found ready, and the handlers
may register and unregister descriptors meanwhile.  The epoll backend works on the kernel's answer,
the poll backend on the array itself, which the handlers compact under its index, and the select
backend on copies of its sets but up to the current `nfds`.

The signal descriptor is one of the descriptors, only registered for reading; what `handleSigfd` does
for it is what its handlers do.  A `handleSigfd` that fails ends the round with -1, and with it the
loop; this is left out.
-/

namespace PoserCore.Backends

open Lib (Machine)

/-- An event that is raised -/
abbrev Ready := ℤ × Direction

/-- The calls that the handlers make for the last of the events raised in this round. -/
abbrev Handlers := List Ready → List Call

/-- A backend in the middle of a round, with the pairs registered and the events raised so far -/
structure Round (β : Type) where
  backend : β
  registered : Interest
  raised : List Ready

variable {β A : Type}

def Round.raise (call : β → Call → β) (handlers : Handlers) (r : Round β) (e : Ready) : Round β :=
  let raised := r.raised ++ [e]
  ⟨(handlers raised).foldl call r.backend, (handlers raised).foldl Call.track r.registered, raised⟩

/-! ## epoll -/

def EP_MAX_EVENTS : ℕ := 32

structure EpollEvent where
  fd : ℤ
  events : BitVec 32

namespace Epoll

/-- What is done for one entry of the kernel's answer. -/
def dispatch (handlers : Handlers) (r : Round Epoll) (ev : EpollEvent) : Round Epoll :=
  let r := if ev.events &&& EPOLLOUT ≠ 0 then r.raise call handlers (ev.fd, .write) else r
  if ev.events &&& EPOLLIN ≠ 0 then r.raise call handlers (ev.fd, .read) else r

def processEvents (handlers : Handlers) (ev : List EpollEvent) (r : Round Epoll) : Round Epoll :=
  ev.foldl (dispatch handlers) r

/-- An answer of `epoll_wait`: watched descriptors with what is ready of them, each once, and all of
them if they fit. -/
structure Answer (e : Epoll) (ready : Interest) (ev : List EpollEvent) : Prop where
  nodup : (ev.map EpollEvent.fd).Nodup
  length : ev.length ≤ EP_MAX_EVENTS
  mem : ∀ x ∈ ev, ∃ m, e.kernel x.fd = some m ∧
    ∀ d, epollFlags.Has x.events d ↔ epollFlags.Has m d ∧ (x.fd, d) ∈ ready
  all : ev.length < EP_MAX_EVENTS → ∀ id m d, e.kernel id = some m → epollFlags.Has m d →
    (id, d) ∈ ready → ∃ x ∈ ev, x.fd = id

end Epoll

/-! ## poll -/

namespace Poll

/-- What is done for the entry `i`, read anew after the handlers of each event ran. -/
def dispatch (handlers : Handlers) (i : ℕ) (r : Round Poll) : Round Poll :=
  let r := if (r.backend.fds i).revents &&& POLLOUT ≠ 0
    then r.raise call handlers ((r.backend.fds i).fd, .write) else r
  let r := if (r.backend.fds i).revents &&& POLLIN ≠ 0
    then r.raise call handlers ((r.backend.fds i).fd, .read) else r
  { r with backend := { r.backend with
      fds := Function.update r.backend.fds i { r.backend.fds i with revents := 0 } } }

def processEvents (handlers : Handlers) (prc i : ℕ) (r : Round Poll) : Round Poll :=
  if 0 < prc ∧ i < r.backend.nfds then
    if (r.backend.fds i).revents = 0 then processEvents handlers prc (i + 1) r
    else processEvents handlers (prc - 1) (i + 1) (dispatch handlers i r)
  else r
termination_by (prc, r.backend.nfds - i)

/-- The entries from `i` on with something to do -/
def pending (p : Poll) (i : ℕ) : Finset ℕ :=
  (Finset.range p.nfds).filter fun j => i ≤ j ∧ (p.fds j).revents ≠ 0

/-- An answer of `poll`: it sets `revents` of all entries and returns how many are not zero. -/
structure Answer (p p' : Poll) (ready : Interest) (prc : ℕ) : Prop where
  size : p'.nfds = p.nfds ∧ p'.fdssz = p.fdssz
  same : ∀ i, (p'.fds i).fd = (p.fds i).fd ∧ (p'.fds i).events = (p.fds i).events
  ready : ∀ i < p.nfds, ∀ d, pollFlags.Has (p'.fds i).revents d ↔
    pollFlags.Has (p.fds i).events d ∧ ((p.fds i).fd, d) ∈ ready
  count : prc = (p'.pending 0).card

end Poll

/-! ## select -/

namespace Select

variable (fdSetsize : ℕ)

/-- One of the two loops over the answer, from the descriptor `i` on -/
def scan (handlers : Handlers) (d : Direction) (set : ℕ → Bool) (src i : ℕ) (r : Round Select) :
    ℕ × Round Select :=
  if 0 < src ∧ (i : ℤ) < r.backend.nfds then
    if set i then
      scan handlers d set (src - 1) (i + 1) (r.raise (call fdSetsize) handlers ((i : ℤ), d))
    else scan handlers d set src (i + 1) r
  else (src, r)
termination_by (src, (r.backend.nfds - i).toNat)

/-- Only sets that are not empty are handed to the kernel. -/
def scanSet (handlers : Handlers) (d : Direction) (s : Select) (set : ℕ → Bool) (src : ℕ)
    (r : Round Select) : ℕ × Round Select :=
  if s.count d ≠ 0 then scan fdSetsize handlers d set src 0 r else (src, r)

def processEvents (handlers : Handlers) (sets : Direction → ℕ → Bool) (src : ℕ) (r : Round Select) :
    Round Select :=
  let s := r.backend
  let (src, r) := scanSet fdSetsize handlers .write s (sets .write) src r
  (scanSet fdSetsize handlers .read s (sets .read) src r).2

/-- The descriptors from `i` on that are set -/
def pending (set : ℕ → Bool) (i n : ℕ) : Finset ℕ :=
  (Finset.range n).filter fun j => i ≤ j ∧ set j = true

/-- An answer of `select`: it leaves what is ready in the sets and returns how much that is. -/
structure Answer (s : Select) (ready : Interest) (sets : Direction → ℕ → Bool) (src : ℕ) : Prop where
  mem : ∀ i d, sets d i = true ↔ s.fds d i = true ∧ ((i : ℤ), d) ∈ ready
  count : src = (pending (sets .write) 0 s.nfds.toNat).card +
    (pending (sets .read) 0 s.nfds.toNat).card

end Select

/-! ## The event loop -/

/-- A backend, with the answers of the kernel it works on -/
structure Backend (β A : Type) where
  create : β
  call : β → Call → β
  Answer : β → Interest → A → Prop
  processEvents : Handlers → A → Round β → Round β

def epoll (epfd : ℕ) : Backend Epoll (List EpollEvent) where
  create := .create epfd
  call := Epoll.call
  Answer := Epoll.Answer
  processEvents := Epoll.processEvents

def poll : Backend Poll (Poll × ℕ) where
  create := .create
  call := Poll.call
  Answer p ready a := p.Answer a.1 ready a.2
  processEvents handlers a r := Poll.processEvents handlers a.2 0 { r with backend := a.1 }

def select (fdSetsize : ℕ) : Backend Select ((Direction → ℕ → Bool) × ℕ) where
  create := .create
  call := Select.call fdSetsize
  Answer s ready a := s.Answer ready a.1 a.2
  processEvents handlers a r := Select.processEvents fdSetsize handlers a.1 a.2 r

/-- What is known of a round: the pairs that were registered and ready when the kernel was asked, its
answer, the handlers, and the events that were raised. -/
structure Report (A : Type) where
  registered : Interest
  ready : Interest
  answer : A
  handlers : Handlers
  raised : List Ready

structure Loop (β A : Type) where
  backend : β
  registered : Interest
  reports : List (Report A)

inductive Action (A : Type)
  | call (c : Call)
  | round (handlers : Handlers) (ready : Interest) (answer : A)

namespace Backend

variable (B : Backend β A)

def step (s : Loop β A) : Action A → Option (Loop β A)
  | .call c => some { s with
      backend := B.call s.backend c
      registered := c.track s.registered }
  | .round handlers ready answer =>
      let r := B.processEvents handlers answer ⟨s.backend, s.registered, []⟩
      some ⟨r.backend, r.registered, s.reports ++ [⟨s.registered, ready, answer, handlers, r.raised⟩]⟩

/-- Any number of rounds, and of calls between them -/
def loop : Machine (Loop β A) (Action A) where
  init s := s = ⟨B.create, ∅, []⟩
  step := B.step

/-- Only descriptors that all backends accept are used, and the kernel answers right. -/
def Permitted (fdSetsize : ℕ) (s : Loop β A) : Action A → Prop
  | .call c => c.Valid fdSetsize
  | .round handlers ready answer =>
      (∀ raised, ∀ c ∈ handlers raised, c.Valid fdSetsize) ∧ B.Answer s.backend ready answer

end Backend

end PoserCore.Backends
