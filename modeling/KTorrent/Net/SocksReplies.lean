import KTorrent.Net.Socks

/-!
# What a proxy connection leaves on the socket

The conversation with a SOCKS server that accepts the connection, by each of the
two versions.  Whatever the client does not read of the replies becomes the start
of the peer protocol.

* `Conversation` — a server that accepts, and the replies it sends.
* `credentials_eq_none_iff` — when the request with the username and the password
  does not fit in its buffer.
* `BoundAddress.unread` — what the client leaves of an address.
* `conversation_iff` — the client is connected, and the socket holds exactly what
  the peer sent, when the reply names an IPv4 address and the credentials fit.
-/

namespace KTorrent
namespace Socks

open Buffer

/-! ## Servers that accept -/

/-- The address that a reply of version 5 names. -/
inductive BoundAddress where
  | ipv4 (ip : { l : List UInt8 // l.length = 4 }) (port : UInt16)
  | ipv6 (ip : { l : List UInt8 // l.length = 16 }) (port : UInt16)
  | domain (name : { l : List UInt8 // l.length < 256 }) (port : UInt16)

/-- The address type and the address, as the reply has them. -/
def BoundAddress.encode : BoundAddress → List UInt8
  | .ipv4 ip port => 1 :: (ip.1 ++ writeUint16 port)
  | .ipv6 ip port => 4 :: (ip.1 ++ writeUint16 port)
  | .domain name port => 3 :: UInt8.ofNat name.1.length :: (name.1 ++ writeUint16 port)

/-- A conversation with a server that accepts the connection.  A server of version 5 may ask for
the username and the password. -/
inductive Conversation where
  | socks4 (ip : UInt32) (port : UInt16) (nullByte : UInt8) (dummy : { l : List UInt8 // l.length = 6 })
  | socks5 (dest : Address) (login : Bool) (reserved : UInt8) (bound : BoundAddress)

namespace Conversation

/-- The version of the server. -/
def version : Conversation → ℕ
  | .socks4 .. => 4
  | .socks5 .. => 5

/-- Where the connection goes. -/
def dest : Conversation → Address
  | .socks4 ip port _ _ => ⟨.ipv4 ip, port⟩
  | .socks5 dest _ _ _ => dest

/-- The server asks for the username and the password. -/
def login : Conversation → Bool
  | .socks4 .. => false
  | .socks5 _ login _ _ => login

/-- The last reply. -/
def connectReply : Conversation → List UInt8
  | .socks4 _ _ nullByte dummy => nullByte :: 0x5a :: dummy.1
  | .socks5 _ _ reserved bound => 5 :: 0 :: reserved :: bound.encode

/-- The replies before the last one. -/
def setupReplies : Conversation → List (List UInt8)
  | .socks4 .. => []
  | .socks5 _ login _ _ => if login then [[5, 2], [1, 0]] else [[5, 0]]

/-- The last reply is one of version 4, or names an IPv4 address. -/
def NamesIPv4 : Conversation → Prop
  | .socks4 .. => True
  | .socks5 _ _ _ (.ipv4 ..) => True
  | .socks5 _ _ _ (.ipv6 ..) => False
  | .socks5 _ _ _ (.domain ..) => False

end Conversation

/-- How the connection to the server is made: its address was known before, or is resolved first;
the socket is connected at once, or later. -/
structure Opening where
  known : Bool
  later : Bool

/-- The events of an opening. -/
def Opening.events (o : Opening) : List Event :=
  (if o.known then [.setup (!o.later) true]
    else [.setup false false, .resolved true (!o.later) true]) ++
  if o.later then [.readyToWrite true] else []

/-- A reply comes and is read. -/
def reply (data : List UInt8) : List Event := [.arrive data, .readyToRead]

/-- The events of a conversation; the peer's bytes come right behind the last reply. -/
def Conversation.events (c : Conversation) (o : Opening) (peer : List UInt8) : List Event :=
  o.events ++ (c.setupReplies.flatMap reply ++ reply (c.connectReply ++ peer))

/-- The client of a conversation. -/
def Conversation.client (c : Conversation) (o : Opening) (user pwd : List UInt8) : Socks :=
  Socks.new c.version c.dest user pwd o.known

/-! ## The credentials -/

theorem store_some {buffer data : List UInt8} {off : ℕ} (h : off + data.length ≤ buffer.length) :
    ∃ buffer', store buffer off data = some buffer' ∧ buffer'.length = buffer.length :=
  ⟨_, if_pos h, length_overwrite h⟩

theorem store_none {buffer data : List UInt8} {off : ℕ} (h : buffer.length < off + data.length) :
    store buffer off data = none := if_neg (not_le.mpr h)

/-- **The buffer** has room for 512 bytes besides the version and the two lengths. -/
theorem credentials_eq_none_iff (user pwd : List UInt8) :
    credentials user pwd = none ↔ 512 < user.length + pwd.length := by
  obtain ⟨b₀, hb₀⟩ : ∃ b₀ : List UInt8, b₀ = List.replicate (3 + 2 * 256) 0 := ⟨_, rfl⟩
  have hlen₀ : b₀.length = 515 := by rw [hb₀, List.length_replicate]
  obtain ⟨b₁, hstore₁, hlen₁⟩ := store_some
    (show 0 + ([1] : List UInt8).length ≤ b₀.length by rw [List.length_singleton]; omega)
  obtain ⟨b₂, hstore₂, hlen₂⟩ := store_some
    (show 1 + [UInt8.ofNat user.length].length ≤ b₁.length by rw [List.length_singleton]; omega)
  rw [credentials, ← hb₀]
  simp only [Option.bind_eq_bind]
  rw [hstore₁, Option.bind_some, hstore₂, Option.bind_some]
  by_cases huser : 2 + user.length ≤ b₂.length
  · obtain ⟨b₃, hstore₃, hlen₃⟩ := store_some huser
    rw [hstore₃, Option.bind_some]
    by_cases hnext : 2 + user.length + 1 ≤ b₃.length
    · obtain ⟨b₄, hstore₄, hlen₄⟩ := store_some
        (show 2 + user.length + [UInt8.ofNat pwd.length].length ≤ b₃.length from hnext)
      rw [hstore₄, Option.bind_some]
      by_cases hpwd : 3 + user.length + pwd.length ≤ b₄.length
      · obtain ⟨b₅, hstore₅, -⟩ := store_some hpwd
        rw [hstore₅]
        refine iff_of_false ?_ (by omega)
        exact fun h => by cases h
      · rw [store_none (not_le.mp hpwd)]
        exact iff_of_true rfl (by omega)
    · rw [store_none (show b₃.length < 2 + user.length + [UInt8.ofNat pwd.length].length from
        not_le.mp hnext)]
      exact iff_of_true rfl (by omega)
  · rw [store_none (not_le.mp huser)]
    exact iff_of_true rfl (by omega)

/-! ## The stages -/

/-- The client has sent a request, and read everything that came. -/
structure Stage (c : Conversation) (user pwd : List UInt8) (setup : SocksSetupState) (s : Socks) : Prop where
  version : s.version = c.version
  dest : s.dest = c.dest
  user : s.socksUsername = user
  pwd : s.socksPassword = pwd
  state : s.state = .connectingToHost
  setup : s.internalState = setup
  inbox : s.inbox = []

variable {c : Conversation} {user pwd : List UInt8} {s : Socks}

/-- The request that the client starts with. -/
def Conversation.firstStage : Conversation → SocksSetupState
  | .socks4 .. => .connectRequestSent
  | .socks5 .. => .authRequestSent

/-- **The connection to the server**, however it is made. -/
theorem run_opening (c : Conversation) (o : Opening) (user pwd : List UInt8) :
    ∃ s, (c.client o user pwd).run o.events = some s ∧ Stage c user pwd c.firstStage s := by
  obtain ⟨known, later⟩ := o
  cases c with
  | socks4 ip port nullByte dummy =>
    cases known <;> cases later <;> exact ⟨_, rfl, ⟨rfl, rfl, rfl, rfl, rfl, rfl, rfl⟩⟩
  | socks5 dest login reserved bound =>
    cases known <;> cases later <;> exact ⟨_, rfl, ⟨rfl, rfl, rfl, rfl, rfl, rfl, rfl⟩⟩

theorem run_reply (s : Socks) (data : List UInt8) :
    s.run (reply data) = Socks.onReadyToRead { s with inbox := s.inbox ++ data } := by
  rw [reply, run_cons, step, Option.bind_some, run_cons, step]
  cases Socks.onReadyToRead { s with inbox := s.inbox ++ data } <;> rfl

/-- The server wants no username. -/
theorem Stage.noLogin (h : Stage c user pwd .authRequestSent s) :
    ∃ s', s.run (reply [5, 0]) = some s' ∧ Stage c user pwd .connectRequestSent s' := by
  obtain ⟨version, dest, user', pwd', known, state, setup, inbox, sent⟩ := s
  obtain ⟨rfl, rfl, rfl, rfl, rfl, rfl, rfl⟩ := h
  exact ⟨_, run_reply .., ⟨rfl, rfl, rfl, rfl, rfl, rfl, rfl⟩⟩

/-- The server wants a username, and the request with it fits or does not fit in the buffer. -/
theorem Stage.login (h : Stage c user pwd .authRequestSent s) :
    (512 < user.length + pwd.length → s.run (reply [5, 2]) = none) ∧
      (user.length + pwd.length ≤ 512 →
        ∃ s', s.run (reply [5, 2]) = some s' ∧ Stage c user pwd .usernameAndPasswordSent s') := by
  obtain ⟨version, dest, user', pwd', known, state, setup, inbox, sent⟩ := s
  obtain ⟨rfl, rfl, rfl, rfl, rfl, rfl, rfl⟩ := h
  rw [run_reply]
  have hsend : ∀ s : Socks, s.state = .connectingToHost → s.internalState = .authRequestSent →
      s.inbox = [5, 2] →
      s.onReadyToRead = Socks.sendUsernamePassword { s with inbox := [] } := by
    intro s hstate hsetup hinbox
    rw [onReadyToRead, hstate, if_neg (by decide), bytesAvailable, hinbox, if_neg (by decide), hsetup]
    dsimp only
    rw [handleAuthReply, readData, hinbox]
    dsimp only [List.take, List.drop]
    rw [if_neg (by decide), if_neg (by decide), if_pos rfl, hstate, hsetup]
  rw [hsend _ rfl rfl rfl, sendUsernamePassword]
  constructor
  · intro hlong
    rw [(credentials_eq_none_iff _ _).mpr hlong]
    rfl
  · intro hshort
    obtain ⟨request, hrequest⟩ : ∃ request, credentials user' pwd' = some request := by
      rw [← Option.ne_none_iff_exists']
      exact fun hnone => absurd ((credentials_eq_none_iff _ _).mp hnone) (not_lt.mpr hshort)
    rw [hrequest]
    exact ⟨_, rfl, ⟨rfl, rfl, rfl, rfl, rfl, rfl, rfl⟩⟩

/-- The server accepts them. -/
theorem Stage.accepted (h : Stage c user pwd .usernameAndPasswordSent s) :
    ∃ s', s.run (reply [1, 0]) = some s' ∧ Stage c user pwd .connectRequestSent s' := by
  obtain ⟨version, dest, user', pwd', known, state, setup, inbox, sent⟩ := s
  obtain ⟨rfl, rfl, rfl, rfl, rfl, rfl, rfl⟩ := h
  exact ⟨_, run_reply .., ⟨rfl, rfl, rfl, rfl, rfl, rfl, rfl⟩⟩

/-! ## The last reply -/

/-- **What the client leaves of an address.** -/
def BoundAddress.unread : BoundAddress → List UInt8
  | .ipv4 .. => []
  | .ipv6 ip port => ip.1.drop 6 ++ writeUint16 port
  | .domain _ port => writeUint16 port

/-- What the client leaves of the last reply. -/
def Conversation.unread : Conversation → List UInt8
  | .socks4 .. => []
  | .socks5 _ _ _ bound => bound.unread

theorem Conversation.unread_eq_nil_iff (c : Conversation) : c.unread = [] ↔ c.NamesIPv4 := by
  cases c with
  | socks4 => exact iff_of_true rfl trivial
  | socks5 dest login reserved bound =>
    cases bound with
    | ipv4 => exact iff_of_true rfl trivial
    | ipv6 ip port =>
      refine iff_of_false (fun h => ?_) id
      rw [Conversation.unread, BoundAddress.unread, List.append_eq_nil_iff] at h
      cases h.2
    | domain name port => exact iff_of_false (fun h => by cases h) id

theorem readAddress_append {ba needed len : ℕ} {data rest : List UInt8} (hba : needed ≤ ba)
    (hlen : data.length = len) (hinbox : s.inbox = data ++ rest) :
    s.readAddress ba needed len = { s with inbox := rest, state := .connected } := by
  rw [readAddress, if_neg (not_lt.mpr hba), readData, hinbox, List.take_left' hlen, List.drop_left' hlen]
  dsimp only
  rw [if_neg (not_not.mpr hlen)]

/-- The client reads an address. -/
theorem handleConnectReply_bound (hversion : s.version = 5) (reserved : UInt8) (bound : BoundAddress)
    (peer : List UInt8) (hinbox : s.inbox = 5 :: 0 :: reserved :: (bound.encode ++ peer)) :
    s.handleConnectReply = { s with inbox := bound.unread ++ peer, state := .connected } := by
  obtain ⟨version, dest, user, pwd, known, state, setup, inbox, sent⟩ := s
  obtain rfl : version = 5 := hversion
  obtain rfl := hinbox
  rw [handleConnectReply, if_neg (by simp), readData]
  cases bound with
  | ipv4 ip port =>
    have hlen : (ip.1 ++ writeUint16 port).length = 6 := by
      rw [List.length_append, ip.2]
      rfl
    show Socks.readAddress ⟨5, dest, user, pwd, known, state, setup, ip.1 ++ writeUint16 port ++ peer, sent⟩
      (ip.1 ++ writeUint16 port ++ peer).length 6 6 = _
    rw [readAddress_append (by rw [List.length_append]; omega) hlen rfl]
    rfl
  | ipv6 ip port =>
    -- six bytes are read of eighteen
    have hlen : (ip.1.take 6).length = 6 := by
      rw [List.length_take, ip.2]
      rfl
    have hinbox : ip.1 ++ writeUint16 port ++ peer =
        ip.1.take 6 ++ (ip.1.drop 6 ++ writeUint16 port ++ peer) := by
      rw [← List.append_assoc, ← List.append_assoc, List.take_append_drop]
    have htwo : (writeUint16 port).length = 2 := rfl
    show Socks.readAddress ⟨5, dest, user, pwd, known, state, setup, ip.1 ++ writeUint16 port ++ peer, sent⟩
      (ip.1 ++ writeUint16 port ++ peer).length 18 6 = _
    rw [readAddress_append (by rw [List.length_append, List.length_append, ip.2]; omega) hlen hinbox]
    rfl
  | domain name port =>
    have hname : (UInt8.ofNat name.1.length).toNat = name.1.length := by
      rw [UInt8.toNat_ofNat']
      exact Nat.mod_eq_of_lt name.2
    show Socks.readAddress ⟨5, dest, user, pwd, known, state, setup, name.1 ++ writeUint16 port ++ peer, sent⟩
      (name.1 ++ writeUint16 port ++ peer).length (UInt8.ofNat name.1.length).toNat
      (UInt8.ofNat name.1.length).toNat = _
    rw [hname, readAddress_append (by rw [List.length_append, List.length_append]; omega) rfl
      (List.append_assoc ..)]
    rfl

/-- **The last reply**: the client is connected, and leaves what it does not read. -/
theorem Stage.connected (h : Stage c user pwd .connectRequestSent s) (peer : List UInt8) :
    ∃ s', s.run (reply (c.connectReply ++ peer)) = some s' ∧ s'.state = .connected ∧
      s'.inbox = c.unread ++ peer := by
  obtain ⟨version, dest, user', pwd', known, state, setup, inbox, sent⟩ := s
  obtain ⟨rfl, rfl, rfl, rfl, rfl, rfl, rfl⟩ := h
  rw [run_reply]
  cases c with
  | socks4 ip port nullByte dummy =>
    obtain ⟨dummy, hdummy⟩ := dummy
    obtain ⟨d₀, d₁, d₂, d₃, d₄, d₅, rfl⟩ : ∃ d₀ d₁ d₂ d₃ d₄ d₅, dummy = [d₀, d₁, d₂, d₃, d₄, d₅] := by
      match dummy, hdummy with
      | [d₀, d₁, d₂, d₃, d₄, d₅], _ => exact ⟨d₀, d₁, d₂, d₃, d₄, d₅, rfl⟩
    exact ⟨_, rfl, rfl, rfl⟩
  | socks5 dest login reserved bound =>
    rw [onReadyToRead, if_neg (by simp), bytesAvailable, if_neg (by simp [Conversation.connectReply])]
    dsimp only
    rw [handleConnectReply_bound rfl reserved bound peer rfl]
    exact ⟨_, rfl, rfl, rfl⟩

/-! ## Conversations -/

/-- The replies before the last one. -/
theorem Stage.setupReplies (h : Stage c user pwd c.firstStage s) :
    (c.login = true ∧ 512 < user.length + pwd.length →
        s.run (c.setupReplies.flatMap reply) = none) ∧
      ((c.login = true → user.length + pwd.length ≤ 512) → ∃ s',
        s.run (c.setupReplies.flatMap reply) = some s' ∧ Stage c user pwd .connectRequestSent s') := by
  cases c with
  | socks4 => exact ⟨fun hlong => absurd hlong.1 Bool.false_ne_true, fun _ => ⟨s, rfl, h⟩⟩
  | socks5 dest login reserved bound =>
    cases login with
    | false => exact ⟨fun hlong => absurd hlong.1 Bool.false_ne_true, fun _ => h.noLogin⟩
    | true =>
      have hreplies : (Conversation.socks5 dest true reserved bound).setupReplies.flatMap reply =
        reply [5, 2] ++ reply [1, 0] := rfl
      rw [hreplies, run_append]
      refine ⟨fun hlong => ?_, fun hshort => ?_⟩
      · rw [h.login.1 hlong.2]
        rfl
      · obtain ⟨s', hrun, hstage⟩ := h.login.2 (hshort rfl)
        rw [hrun]
        exact hstage.accepted

/-- **Conversations that accept.**  For every conversation, however the connection to the server is
made, every username and password, and every sequence of bytes that the peer sends behind the last
reply: the client is connected, has written no byte outside its buffers, and has left exactly the
peer's bytes on the socket, exactly when the last reply is one of version 4 or names an IPv4
address, and the credentials that are asked for have 512 bytes at most. -/
theorem conversation_iff (c : Conversation) (o : Opening) (user pwd peer : List UInt8) :
    (∃ s, (c.client o user pwd).run (c.events o peer) = some s ∧ s.state = .connected ∧
        s.inbox = peer) ↔
      c.NamesIPv4 ∧ (c.login = true → user.length + pwd.length ≤ 512) := by
  obtain ⟨s₁, hopen, hfirst⟩ := run_opening c o user pwd
  rw [Conversation.events, run_append, hopen, Option.bind_some, run_append]
  by_cases hfits : c.login = true → user.length + pwd.length ≤ 512
  · obtain ⟨s₂, hsetup, hsecond⟩ := hfirst.setupReplies.2 hfits
    obtain ⟨s₃, hlast, hconnected, hinbox⟩ := hsecond.connected peer
    rw [hsetup, Option.bind_some, hlast, and_iff_left hfits, ← c.unread_eq_nil_iff]
    constructor
    · rintro ⟨s, hs, -, hpeer⟩
      obtain rfl := Option.some.inj hs
      rw [hinbox] at hpeer
      exact List.append_left_eq_self.mp hpeer
    · intro hnil
      exact ⟨s₃, rfl, hconnected, by rw [hinbox, hnil, List.nil_append]⟩
  · rw [Classical.not_imp, not_le] at hfits
    rw [hfirst.setupReplies.1 hfits]
    exact iff_of_false (fun ⟨s, hs, _⟩ => by cases hs) fun h => by
      have := h.2 hfits.1
      omega

/-- A server that names an IPv6 address. -/
def ipv6Reply : Conversation :=
  .socks5 ⟨.ipv4 0, 80⟩ false 0 (.ipv6 ⟨List.replicate 16 7, rfl⟩ 80)

/-- **An IPv6 address in the reply**: twelve bytes of it are left in front of what the peer sends. -/
theorem ipv6Reply_unread :
    (∃ s, (ipv6Reply.client ⟨true, false⟩ [] []).run (ipv6Reply.events ⟨true, false⟩ [19]) = some s ∧
        s.state = .connected ∧ s.inbox = List.replicate 10 7 ++ [0, 80] ++ [19]) ∧
      ¬ ∃ s, (ipv6Reply.client ⟨true, false⟩ [] []).run (ipv6Reply.events ⟨true, false⟩ [19]) =
        some s ∧ s.state = .connected ∧ s.inbox = [19] := by
  obtain ⟨s, hrun, hconnected, hinbox⟩ : ∃ s, (ipv6Reply.client ⟨true, false⟩ [] []).run
      (ipv6Reply.events ⟨true, false⟩ [19]) = some s ∧ s.state = .connected ∧
      s.inbox = List.replicate 10 7 ++ [0, 80] ++ [19] := ⟨_, rfl, rfl, rfl⟩
  refine ⟨⟨s, hrun, hconnected, hinbox⟩, ?_⟩
  rintro ⟨s', hrun', -, hinbox'⟩
  obtain rfl := Option.some.inj (hrun.symm.trans hrun')
  rw [hinbox] at hinbox'
  exact absurd hinbox' (by decide)

end Socks
end KTorrent
