import KTorrent.Dht.Database
import KTorrent.Lib.FiniteMap

/-!
# The life of a token

`dht/database.cpp` with its time stamps: tokens are generated, checked and expired, and the
stored items are expired with them.

* `StampedDatabase` — the database with the times of its items; `toDatabase` forgets them,
  and `store`, `genToken` and `checkToken` are those of `Database`.
* `expire` — the loop over the keys, each of which loses its items up to the first young
  one, and the loop over the tokens.
* `TokenLog.step` — a call is made; what came of it is remembered, and what was hashed.
* `Genuine` — a token was generated for an address, and neither expired nor used up since.
* `allSteps_safe` — along every run a check succeeds exactly on genuine tokens, and an
  expiry takes out exactly what is too old, as long as the hash has no collisions.
-/

namespace KTorrent

open Runs

/-- `MAX_ITEM_AGE`, in milliseconds. -/
def maxItemAge : UInt64 := 30 * 60 * 1000

/-- `DBItem`, with its time stamp. -/
structure StampedItem where
  item : DBItem
  timeStamp : UInt64

/-- `DBItem::expired(now)`. -/
def StampedItem.expired (i : StampedItem) (now : UInt64) : Bool := now - i.timeStamp ≥ maxItemAge

/-- `Database`, with the time stamps of its items. -/
structure StampedDatabase where
  items : AList fun _ : Key => List StampedItem
  tokens : AList fun _ : List UInt8 => UInt64

namespace StampedDatabase

/-- An empty database. -/
def new : StampedDatabase := ⟨∅, ∅⟩

/-- The items of a key; a key that is not there has none. -/
def itemsOf (db : StampedDatabase) (key : Key) : List StampedItem := (db.items.lookup key).getD []

/-- The database without time stamps. -/
def toDatabase (db : StampedDatabase) : Database :=
  { items := FiniteMap.prune (fun _ dbl => some (dbl.map StampedItem.item)) db.items
    tokens := db.tokens }

/-- `store(key, DBItem(addr))` at the time `now`. -/
def store (now : UInt64) (db : StampedDatabase) (key : Key) (addr : Address) : StampedDatabase :=
  { db with items := db.items.insert key (db.itemsOf key ++ [⟨⟨addr⟩, now⟩]) }

/-- `genToken(addr)` at the time `now`. -/
def genToken (sha1 : List UInt8 → List UInt8) (now : UInt64) (db : StampedDatabase)
    (addr : Address) : List UInt8 × StampedDatabase :=
  let (token, db') := db.toDatabase.genToken sha1 now addr
  (token, { db with tokens := db'.tokens })

/-- `checkToken(token, addr)`. -/
def checkToken (sha1 : List UInt8 → List UInt8) (db : StampedDatabase) (token : List UInt8)
    (addr : Address) : Bool × StampedDatabase :=
  let (ok, db') := db.toDatabase.checkToken sha1 token addr
  (ok, { db with tokens := db'.tokens })

/-- A turn of the first loop of `expire`: the items up to the first young one go, and the key
with them when none is left. -/
def expireItems (now : UInt64) (dbl : List StampedItem) : Option (List StampedItem) :=
  let dbl := dbl.dropWhile (·.expired now)
  if dbl.length = 0 then none else some dbl

/-- A turn of its second loop. -/
def expireToken (now time : UInt64) : Option UInt64 :=
  if now - time ≥ maxItemAge then none else some time

/-- `expire(now)`. -/
def expire (now : UInt64) (db : StampedDatabase) : StampedDatabase :=
  { items := FiniteMap.prune (fun _ => expireItems now) db.items
    tokens := FiniteMap.prune (fun _ => expireToken now) db.tokens }

/-! ## The database underneath -/

end StampedDatabase

/-! ## Runs -/

/-- A call of the database. -/
inductive DatabaseOp where
  | store (key : Key) (addr : Address)
  | genToken (addr : Address)
  | checkToken (token : List UInt8) (addr : Address)
  | expire

/-- A call at a time. -/
structure DatabaseCall where
  now : UInt64
  op : DatabaseOp

/-- What came of a call, as far as tokens go. -/
inductive TokenLogEvent where
  | generated (addr : Address) (time : UInt64) (token : List UInt8)
  | checked (token : List UInt8) (ok : Bool)
  | expired (now : UInt64)

/-- The database, what has happened, and what was hashed. -/
structure TokenLog where
  db : StampedDatabase
  past : List TokenLogEvent
  hashed : List (List UInt8)

namespace TokenLog

variable {sha1 : List UInt8 → List UInt8}

/-- Nothing has happened. -/
def new : TokenLog := ⟨StampedDatabase.new, [], []⟩

/-- A call is made. -/
def step (sha1 : List UInt8 → List UInt8) (s : TokenLog) (call : DatabaseCall) : TokenLog :=
  match call.op with
  | .store key addr => { s with db := s.db.store call.now key addr }
  | .genToken addr =>
    let (token, db) := s.db.genToken sha1 call.now addr
    { db
      past := s.past ++ [.generated addr call.now token]
      hashed := s.hashed ++ [Database.tokenData addr call.now] }
  | .checkToken token addr =>
    let (ok, db) := s.db.checkToken sha1 token addr
    { db
      past := s.past ++ [.checked token ok]
      hashed := s.hashed ++
        ((s.db.tokens.lookup token).map (Database.tokenData addr)).toList }
  | .expire =>
    { s with db := s.db.expire call.now, past := s.past ++ [.expired call.now] }

/-- An event after which a token that was generated at `time` is no longer good. -/
def Removes (token : List UInt8) (time : UInt64) : TokenLogEvent → Prop
  | .generated .. => False
  | .checked t ok => t = token ∧ ok = true
  | .expired now => time.toNat + maxItemAge.toNat ≤ now.toNat

/-- The token was generated for the address at this time, and neither a check nor an expiry has
removed it since. -/
def GenuineAt (past : List TokenLogEvent) (token : List UInt8) (addr : Address) (time : UInt64) :
    Prop :=
  ∃ before after, past = before ++ .generated addr time token :: after ∧
    ∀ e ∈ after, ¬ Removes token time e

/-- The token is good for the address. -/
def Genuine (s : TokenLog) (token : List UInt8) (addr : Address) : Prop :=
  ∃ time, GenuineAt s.past token addr time

/-- An expiry takes out the tokens and items of age `MAX_ITEM_AGE` and more, and no others. -/
structure Expires (now : UInt64) (db db' : StampedDatabase) : Prop where
  tokens : ∀ token time, db'.tokens.lookup token = some time ↔
    db.tokens.lookup token = some time ∧ now.toNat < time.toNat + maxItemAge.toNat
  items : ∀ key, db'.itemsOf key =
    (db.itemsOf key).filter fun i => now.toNat < i.timeStamp.toNat + maxItemAge.toNat

/-- **The law.**  A check succeeds on the tokens that are good for the address, and an expiry
takes out what is too old. -/
def Safe (sha1 : List UInt8 → List UInt8) (s : TokenLog) (call : DatabaseCall) : Prop :=
  match call.op with
  | .checkToken token addr => (s.db.checkToken sha1 token addr).1 = true ↔ s.Genuine token addr
  | .expire => Expires call.now s.db (s.db.expire call.now)
  | .store .. | .genToken .. => True

/-- No two of the inputs have the same hash. -/
def NoCollisions (sha1 : List UInt8 → List UInt8) (inputs : List (List UInt8)) : Prop :=
  ∀ x ∈ inputs, ∀ y ∈ inputs, sha1 x = sha1 y → x = y

instance (inputs : List (List UInt8)) : Decidable (NoCollisions sha1 inputs) :=
  inferInstanceAs (Decidable (∀ x ∈ inputs, ∀ y ∈ inputs, sha1 x = sha1 y → x = y))

/-! ## What is hashed -/

theorem writeUint32_inj {v w : UInt32} (h : writeUint32 v = writeUint32 w) : v = w := by
  have hv := readUint32_writeUint32 [] [] v
  have hw := readUint32_writeUint32 [] [] w
  rw [h, hw] at hv
  exact (Option.some.inj hv).symm

theorem writeUint64_inj {v w : UInt64} (h : writeUint64 v = writeUint64 w) : v = w := by
  obtain ⟨hhigh, hlow⟩ := List.append_inj h rfl
  have hhigh' := congrArg UInt32.toNat (writeUint32_inj hhigh)
  have hlow' := congrArg UInt32.toNat (writeUint32_inj hlow)
  have hv := v.toNat_lt
  have hw := w.toNat_lt
  rw [UInt32.toNat_ofNat', UInt32.toNat_ofNat'] at hhigh' hlow'
  apply UInt64.toNat_inj.1
  omega

theorem writeCompact_inj {a b : Address} (h : a.writeCompact = b.writeCompact) : a = b := by
  have hlen := congrArg List.length h
  rw [a.writeCompact_length, b.writeCompact_length] at hlen
  have hversion : a.ipVersion = b.ipVersion := by
    cases ha : a.ipVersion <;> cases hb : b.ipVersion <;> simp_all [IpVersion.compactWidth]
  have ha := a.fromCompact_writeCompact
  rw [hversion, h, b.fromCompact_writeCompact] at ha
  exact (Option.some.inj ha).symm

/-- The 14 or 26 bytes tell the address and the time. -/
theorem tokenData_inj {a b : Address} {v w : UInt64}
    (h : Database.tokenData a v = Database.tokenData b w) : a = b ∧ v = w := by
  obtain ⟨haddr, htime⟩ := List.append_inj' h rfl
  exact ⟨writeCompact_inj haddr, writeUint64_inj htime⟩

/-! ## Ages -/

theorem le_age_iff {now time : UInt64} (h : time ≤ now) :
    now - time ≥ maxItemAge ↔ time.toNat + maxItemAge.toNat ≤ now.toNat := by
  have hle : time.toNat ≤ now.toNat := h
  rw [ge_iff_le, UInt64.le_iff_toNat_le, UInt64.toNat_sub_of_le _ _ h]
  omega

/-- In a list that falls from what has a property to what does not, dropping the front is taking
the rest. -/
theorem dropWhile_eq_filter {α : Type*} {p : α → Bool} {l : List α}
    (h : l.Pairwise fun a b => p b = true → p a = true) :
    l.dropWhile p = l.filter fun a => !p a := by
  induction l with
  | nil => rfl
  | cons a l ih =>
    obtain ⟨ha, hl⟩ := List.pairwise_cons.mp h
    by_cases hp : p a = true
    · simp [hp, ih hl]
    · have hall : ∀ b ∈ l, p b = false := fun b hb => by
        simpa using fun hb' => hp (ha b hb hb')
      have hkeep : l.filter (fun b => !p b) = l :=
        List.filter_eq_self.mpr fun b hb => by simp [hall b hb]
      simp [hp, hkeep]

/-! ## The invariant -/

/-- What is known before a call at the time `clock` or later: the tokens in the database are the
good ones, and every list of items is in the order of their times. -/
structure Sound (sha1 : List UInt8 → List UInt8) (clock : UInt64) (s : TokenLog) : Prop where
  made : ∀ addr time token, .generated addr time token ∈ s.past →
    token = sha1 (Database.tokenData addr time) ∧ Database.tokenData addr time ∈ s.hashed ∧
      time ≤ clock
  kept : ∀ token time, s.db.tokens.lookup token = some time →
    ∃ addr, GenuineAt s.past token addr time
  good : ∀ token addr time, GenuineAt s.past token addr time →
    s.db.tokens.lookup token = some time
  sorted : ∀ key, (s.db.itemsOf key).Pairwise (·.timeStamp ≤ ·.timeStamp)
  past : ∀ key, ∀ i ∈ s.db.itemsOf key, i.timeStamp ≤ clock

theorem sound_new : Sound sha1 0 new where
  made := by simp [new]
  kept := by simp [new, StampedDatabase.new]
  good := by
    rintro token addr time ⟨before, after, h, -⟩
    simp [new] at h
  sorted := fun _ => List.Pairwise.nil
  past := fun _ i hi => by cases hi

variable {s : TokenLog} {clock now : UInt64} {token : List UInt8} {addr : Address} {time : UInt64}
  {past : List TokenLogEvent} {e : TokenLogEvent}

/-- One more event: the token was good before it and is not removed, or it is generated now. -/
theorem genuineAt_append :
    GenuineAt (past ++ [e]) token addr time ↔
      (GenuineAt past token addr time ∧ ¬ Removes token time e) ∨
        e = .generated addr time token := by
  constructor
  · rintro ⟨before, after, h, hafter⟩
    obtain rfl | ⟨after, e', rfl⟩ := List.eq_nil_or_concat' after
    · obtain ⟨-, he⟩ := List.append_inj' h rfl
      exact .inr (List.singleton_inj.mp he)
    · rw [← List.cons_append, ← List.append_assoc] at h
      obtain ⟨hpast, he⟩ := List.append_inj' h rfl
      obtain rfl := List.singleton_inj.mp he
      exact .inl ⟨⟨before, after, hpast, fun e he => hafter e (List.mem_append_left _ he)⟩,
        hafter e (by simp)⟩
  · rintro (⟨⟨before, after, h, hafter⟩, he⟩ | rfl)
    · refine ⟨before, after ++ [e], by simp [h], fun e' he' => ?_⟩
      obtain he' | he' := List.mem_append.mp he'
      · exact hafter e' he'
      · rwa [List.mem_singleton.mp he']
    · exact ⟨past, [], rfl, by simp⟩

theorem GenuineAt.mem (h : GenuineAt past token addr time) :
    .generated addr time token ∈ past := by
  obtain ⟨before, after, rfl, -⟩ := h
  simp

theorem Sound.later (h : Sound sha1 clock s) (hclock : clock ≤ now) : Sound sha1 now s :=
  { h with
    made := fun a v t ht => by
      obtain ⟨htoken, hhashed, htime⟩ := h.made a v t ht
      exact ⟨htoken, hhashed, UInt64.le_trans htime hclock⟩
    past := fun key i hi => UInt64.le_trans (h.past key i hi) hclock }

/-- The tokens in the database are hashes of what they were made from. -/
theorem Sound.token_eq (h : Sound sha1 clock s) (hgood : GenuineAt s.past token addr time) :
    token = sha1 (Database.tokenData addr time) := (h.made _ _ _ hgood.mem).1

/-! ## The calls -/

/-- Storing an item leaves the tokens alone and keeps the order. -/
theorem Sound.store (h : Sound sha1 now s) (key : Key) (addr : Address) :
    Sound sha1 now (s.step sha1 ⟨now, .store key addr⟩) where
  made := h.made
  kept := h.kept
  good := h.good
  sorted := by
    intro key'
    show ((s.db.store now key addr).itemsOf key').Pairwise _
    rw [StampedDatabase.itemsOf, StampedDatabase.store]
    by_cases hkey : key' = key
    · subst hkey
      rw [AList.lookup_insert, Option.getD_some, List.pairwise_append]
      refine ⟨h.sorted key', List.pairwise_singleton _ _, fun i hi j hj => ?_⟩
      rw [List.mem_singleton.mp hj]
      exact h.past key' i hi
    · rw [AList.lookup_insert_ne hkey]
      exact h.sorted key'
  past := by
    intro key' i hi
    change i ∈ (s.db.store now key addr).itemsOf key' at hi
    rw [StampedDatabase.itemsOf, StampedDatabase.store] at hi
    by_cases hkey : key' = key
    · subst hkey
      rw [AList.lookup_insert, Option.getD_some, List.mem_append, List.mem_singleton] at hi
      obtain hi | rfl := hi
      · exact h.past key' i hi
      · exact UInt64.le_refl now
    · rw [AList.lookup_insert_ne hkey] at hi
      exact h.past key' i hi

/-- A generated token is good for its address; it is the token of no other one. -/
theorem Sound.genToken (h : Sound sha1 now s) (addr : Address)
    (hsha1 : NoCollisions sha1 (s.step sha1 ⟨now, .genToken addr⟩).hashed) :
    Sound sha1 now (s.step sha1 ⟨now, .genToken addr⟩) := by
  obtain ⟨token, htoken⟩ : ∃ token, token = sha1 (Database.tokenData addr now) := ⟨_, rfl⟩
  have hstep : s.step sha1 ⟨now, .genToken addr⟩ =
      { db := { s.db with tokens := s.db.tokens.insert token now }
        past := s.past ++ [.generated addr now token]
        hashed := s.hashed ++ [Database.tokenData addr now] } := by rw [htoken]; rfl
  rw [hstep] at hsha1 ⊢
  exact {
    made := by
      intro a v t ht
      obtain ht | ht := List.mem_append.mp ht
      · obtain ⟨heq, hhashed, hle⟩ := h.made a v t ht
        exact ⟨heq, List.mem_append_left _ hhashed, hle⟩
      · obtain ⟨rfl, rfl, rfl⟩ : a = addr ∧ v = now ∧ t = token := by simpa using ht
        exact ⟨htoken, by simp, UInt64.le_refl _⟩
    kept := by
      intro t v hlookup
      by_cases ht : t = token
      · subst ht
        rw [AList.lookup_insert] at hlookup
        obtain rfl := Option.some.inj hlookup
        exact ⟨addr, genuineAt_append.mpr (.inr rfl)⟩
      · rw [AList.lookup_insert_ne ht] at hlookup
        obtain ⟨a, ha⟩ := h.kept t v hlookup
        exact ⟨a, genuineAt_append.mpr (.inl ⟨ha, id⟩)⟩
    good := by
      intro t a v hgood
      obtain ⟨hold, -⟩ | hnew := genuineAt_append.mp hgood
      · by_cases ht : t = token
        · -- the same token: the same address and time, for want of a collision
          subst ht
          obtain ⟨heq, hhashed, -⟩ := h.made _ _ _ hold.mem
          have hsame := hsha1 _ (List.mem_append_left _ hhashed) _
            (List.mem_append_right _ (List.mem_singleton.mpr rfl)) (heq.symm.trans htoken)
          rw [AList.lookup_insert, (tokenData_inj hsame).2]
        · rw [AList.lookup_insert_ne ht]
          exact h.good t a v hold
      · obtain ⟨rfl, rfl, rfl⟩ : addr = a ∧ now = v ∧ token = t := by simpa using hnew
        rw [AList.lookup_insert]
    sorted := h.sorted
    past := h.past }

/-- A check succeeds exactly on a good token, which it uses up. -/
theorem Sound.checkToken (h : Sound sha1 now s) (token : List UInt8) (addr : Address)
    (hsha1 : NoCollisions sha1 (s.step sha1 ⟨now, .checkToken token addr⟩).hashed) :
    ((s.db.checkToken sha1 token addr).1 = true ↔ s.Genuine token addr) ∧
      Sound sha1 now (s.step sha1 ⟨now, .checkToken token addr⟩) := by
  have hrefused : (s.db.checkToken sha1 token addr) = (false, s.db) →
      Sound sha1 now (s.step sha1 ⟨now, .checkToken token addr⟩) := by
    intro heq
    have hkeep : ∀ {t a v}, GenuineAt (s.past ++ [.checked token false]) t a v ↔
        GenuineAt s.past t a v := by
      intro t a v
      rw [genuineAt_append]
      simp [Removes]
    rw [step]
    simp only [heq]
    exact {
      made := fun a v t ht => by
        obtain ⟨htoken, hhashed, hle⟩ := h.made a v t (by simpa using ht)
        exact ⟨htoken, List.mem_append_left _ hhashed, hle⟩
      kept := fun t v ht => by
        obtain ⟨a, ha⟩ := h.kept t v ht
        exact ⟨a, hkeep.mpr ha⟩
      good := fun t a v ht => h.good t a v (hkeep.mp ht)
      sorted := h.sorted
      past := h.past }
  cases hlookup : s.db.tokens.lookup token with
  | none =>
    have heq : s.db.checkToken sha1 token addr = (false, s.db) := by
      rw [StampedDatabase.checkToken, Database.checkToken]
      simp only [StampedDatabase.toDatabase, hlookup]
    refine ⟨?_, hrefused heq⟩
    rw [heq]
    refine iff_of_false (by simp) ?_
    rintro ⟨v, hgood⟩
    rw [h.good _ _ _ hgood] at hlookup
    cases hlookup
  | some time =>
    by_cases hmade : token = sha1 (Database.tokenData addr time)
    · have heq : s.db.checkToken sha1 token addr
          = (true, { s.db with tokens := s.db.tokens.erase token }) := by
        rw [StampedDatabase.checkToken, Database.checkToken]
        simp only [StampedDatabase.toDatabase, hlookup]
        rw [if_neg (not_not.mpr hmade)]
      have hstep : s.step sha1 ⟨now, .checkToken token addr⟩ =
          { db := { s.db with tokens := s.db.tokens.erase token }
            past := s.past ++ [.checked token true]
            hashed := s.hashed ++ [Database.tokenData addr time] } := by
        rw [step]
        simp only [heq, hlookup]
        rfl
      rw [hstep] at hsha1 ⊢
      rw [heq]
      refine ⟨iff_of_true rfl ?_, ?_⟩
      · -- it was generated for somebody; that was this address, for want of a collision
        obtain ⟨a, ha⟩ := h.kept token time hlookup
        obtain ⟨htoken, hhashed, -⟩ := h.made _ _ _ ha.mem
        have hsame := hsha1 _ (List.mem_append_left _ hhashed) _
          (List.mem_append_right _ (List.mem_singleton.mpr rfl)) (htoken.symm.trans hmade)
        rw [(tokenData_inj hsame).1] at ha
        exact ⟨time, ha⟩
      · exact {
          made := fun a v t ht => by
            obtain ⟨htoken, hhashed, hle⟩ := h.made a v t (by simpa using ht)
            exact ⟨htoken, List.mem_append_left _ hhashed, hle⟩
          kept := by
            intro t v ht
            have hne : t ≠ token := by
              rintro rfl
              rw [AList.lookup_erase] at ht
              cases ht
            rw [AList.lookup_erase_ne hne] at ht
            obtain ⟨a, ha⟩ := h.kept t v ht
            exact ⟨a, genuineAt_append.mpr (.inl ⟨ha, fun hremoves => hne hremoves.1.symm⟩)⟩
          good := by
            intro t a v hgood
            obtain ⟨hold, hnot⟩ | hnew := genuineAt_append.mp hgood
            · have hne : t ≠ token := fun ht => hnot ⟨ht.symm, rfl⟩
              rw [AList.lookup_erase_ne hne]
              exact h.good t a v hold
            · cases hnew
          sorted := h.sorted
          past := h.past }
    · have heq : s.db.checkToken sha1 token addr = (false, s.db) := by
        rw [StampedDatabase.checkToken, Database.checkToken]
        simp only [StampedDatabase.toDatabase, hlookup]
        rw [if_pos hmade]
      refine ⟨?_, hrefused heq⟩
      rw [heq]
      refine iff_of_false (by simp) ?_
      rintro ⟨v, hgood⟩
      have hv := h.good _ _ _ hgood
      rw [hlookup] at hv
      obtain rfl := Option.some.inj hv
      exact hmade (h.token_eq hgood)

/-- An expiry takes out what is too old, and the tokens that are left are the good ones. -/
theorem Sound.expire (h : Sound sha1 now s) :
    Expires now s.db (s.db.expire now) ∧ Sound sha1 now (s.step sha1 ⟨now, .expire⟩) := by
  have htokens : ∀ t v, (s.db.expire now).tokens.lookup t = some v ↔
      s.db.tokens.lookup t = some v ∧ now.toNat < v.toNat + maxItemAge.toNat := by
    intro t v
    rw [StampedDatabase.expire, FiniteMap.lookup_prune]
    cases hlookup : s.db.tokens.lookup t with
    | none => simp
    | some w =>
      obtain ⟨a, ha⟩ := h.kept t w hlookup
      have hage := le_age_iff (h.made _ _ _ ha.mem).2.2
      simp only [Option.bind_some, StampedDatabase.expireToken, hage, Option.some.injEq]
      split
      · rename_i hold
        refine iff_of_false (by simp) ?_
        rintro ⟨rfl, hyoung⟩
        omega
      · rename_i hyoung
        rw [Option.some.injEq]
        refine ⟨?_, fun hv => hv.1⟩
        rintro rfl
        exact ⟨rfl, by omega⟩
  have hitems : ∀ key, (s.db.expire now).itemsOf key =
      (s.db.itemsOf key).filter fun i => now.toNat < i.timeStamp.toNat + maxItemAge.toNat := by
    intro key
    have hdrop : (s.db.itemsOf key).dropWhile (·.expired now) =
        (s.db.itemsOf key).filter fun i => now.toNat < i.timeStamp.toNat + maxItemAge.toNat := by
      have hexpired : ∀ i ∈ s.db.itemsOf key, i.expired now =
          decide (i.timeStamp.toNat + maxItemAge.toNat ≤ now.toNat) := fun i hi => by
        rw [StampedItem.expired]
        exact decide_eq_decide.mpr (le_age_iff (h.past key i hi))
      rw [dropWhile_eq_filter]
      · refine List.filter_congr fun i hi => ?_
        rw [hexpired i hi, ← decide_not]
        exact decide_eq_decide.mpr not_le
      · refine (h.sorted key).imp_of_mem fun {i j} hi hj hle hj' => ?_
        rw [hexpired j hj, decide_eq_true_eq] at hj'
        rw [hexpired i hi, decide_eq_true_eq]
        have hle' : i.timeStamp.toNat ≤ j.timeStamp.toNat := hle
        omega
    rw [StampedDatabase.itemsOf, StampedDatabase.expire, FiniteMap.lookup_prune]
    rw [StampedDatabase.itemsOf] at hdrop
    cases hlookup : s.db.items.lookup key with
    | none => rw [StampedDatabase.itemsOf, hlookup]; rfl
    | some dbl =>
      rw [hlookup, Option.getD_some] at hdrop
      rw [StampedDatabase.itemsOf, hlookup, Option.bind_some, Option.getD_some,
        StampedDatabase.expireItems, ← hdrop]
      split
      · rename_i hnil
        rw [List.length_eq_zero_iff.mp hnil]
        rfl
      · rfl
  refine ⟨⟨htokens, hitems⟩, ?_⟩
  have hgenuine : ∀ {t a v}, GenuineAt (s.past ++ [.expired now]) t a v ↔
      GenuineAt s.past t a v ∧ now.toNat < v.toNat + maxItemAge.toNat := by
    intro t a v
    rw [genuineAt_append]
    simp [Removes]
  exact {
    made := fun a v t ht => h.made a v t (by
      change _ ∈ s.past ++ [_] at ht
      simpa using ht)
    kept := fun t v ht => by
      obtain ⟨hold, hyoung⟩ := (htokens t v).mp ht
      obtain ⟨a, ha⟩ := h.kept t v hold
      exact ⟨a, hgenuine.mpr ⟨ha, hyoung⟩⟩
    good := fun t a v hgood => by
      obtain ⟨hold, hyoung⟩ := hgenuine.mp hgood
      exact (htokens t v).mpr ⟨h.good t a v hold, hyoung⟩
    sorted := fun key => by
      show ((s.db.expire now).itemsOf key).Pairwise _
      rw [hitems]
      exact (h.sorted key).filter _
    past := fun key i hi => by
      change i ∈ (s.db.expire now).itemsOf key at hi
      rw [hitems] at hi
      exact h.past key i (List.mem_of_mem_filter hi) }

/-- **The step lemma.** -/
theorem Sound.step (h : Sound sha1 clock s) {call : DatabaseCall} (hclock : clock ≤ call.now)
    (hsha1 : NoCollisions sha1 (s.step sha1 call).hashed) :
    Safe sha1 s call ∧ Sound sha1 call.now (s.step sha1 call) := by
  have h := h.later hclock
  obtain ⟨now, op⟩ := call
  cases op with
  | store key addr => exact ⟨trivial, h.store key addr⟩
  | genToken addr => exact ⟨trivial, h.genToken addr hsha1⟩
  | checkToken token addr => exact h.checkToken token addr hsha1
  | expire => exact h.expire

/-- What was hashed stays on the record. -/
theorem hashed_sublist : ∀ (calls : List DatabaseCall) (s : TokenLog),
    s.hashed ⊆ (run (step sha1) s calls).hashed := by
  intro calls
  induction calls with
  | nil => exact fun s => List.Subset.refl _
  | cons call calls ih =>
    intro s
    refine List.Subset.trans ?_ (ih _)
    obtain ⟨now, op⟩ := call
    cases op with
    | store key addr => exact List.Subset.refl _
    | genToken addr => exact List.subset_append_left _ _
    | checkToken token addr => exact List.subset_append_left _ _
    | expire => exact List.Subset.refl _

/-- **Token safety.**  Along every run with non-decreasing times, as long as no two of the
inputs it hashes have the same hash, a check succeeds exactly when the token was generated for
the address and neither expired nor used up since, and an expiry takes out exactly what has
reached its age. -/
theorem allSteps_safe (sha1 : List UInt8 → List UInt8) (calls : List DatabaseCall)
    (htimes : calls.Pairwise fun c d => c.now ≤ d.now)
    (hsha1 : NoCollisions sha1 (run (step sha1) new calls).hashed) :
    AllSteps (step sha1) (Safe sha1) new calls := by
  have hrun : ∀ (calls : List DatabaseCall) (clock : UInt64) (s : TokenLog), Sound sha1 clock s →
      (∀ c ∈ calls, clock ≤ c.now) → (calls.Pairwise fun c d => c.now ≤ d.now) →
      NoCollisions sha1 (run (step sha1) s calls).hashed →
      AllSteps (step sha1) (Safe sha1) s calls := by
    intro calls
    induction calls with
    | nil => intro clock s _ _ _ _; trivial
    | cons call calls ih =>
      intro clock s h hclock htimes hsha1
      obtain ⟨hfirst, hrest⟩ := List.pairwise_cons.mp htimes
      have hnow : NoCollisions sha1 (s.step sha1 call).hashed := fun x hx y hy =>
        hsha1 x (hashed_sublist calls _ hx) y (hashed_sublist calls _ hy)
      obtain ⟨hsafe, hsound⟩ := h.step (hclock call (List.mem_cons_self ..)) hnow
      exact ⟨hsafe, ih _ _ hsound hfirst hrest hsha1⟩
  exact hrun calls 0 new sound_new (fun c _ => UInt64.zero_le) htimes hsha1

/-- Twenty bytes that tell inputs of 14 bytes apart. -/
def twentyBytes (data : List UInt8) : List UInt8 := (data ++ List.replicate 20 0).take 20

/-- A token is generated and used, and once more; the second one expires. -/
def twoTokens (sha1 : List UInt8 → List UInt8) : List DatabaseCall :=
  let addr : Address := ⟨.ipv4 1, 6881⟩
  [⟨0, .genToken addr⟩, ⟨5, .store Key.min addr⟩,
    ⟨5, .checkToken (sha1 (Database.tokenData addr 0)) addr⟩, ⟨7, .genToken addr⟩,
    ⟨1800007, .expire⟩, ⟨1800008, .checkToken (sha1 (Database.tokenData addr 7)) addr⟩]

/-- Only the first check succeeds. -/
theorem twoTokens_safe :
    AllSteps (step twentyBytes) (Safe twentyBytes) new (twoTokens twentyBytes) ∧
      (run (step twentyBytes) new (twoTokens twentyBytes)).past.filterMap (fun
        | .checked _ ok => some ok
        | _ => none) = [true, false] :=
  ⟨allSteps_safe twentyBytes (twoTokens twentyBytes) (by decide) (by decide +kernel),
    by decide +kernel⟩

end TokenLog

end KTorrent
