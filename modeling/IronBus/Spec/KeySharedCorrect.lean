import IronBus.Spec.GroupSlotCorrect

/-!
# A key-shared group delivers each key in order, to one member

The router of a key-shared group is updated apart from the lease table and the cursor. What ties
them together is that a lease on a record that is not acknowledged marks the key of the record, and
a marked offset has nothing of its key left below it.

Key results:
- `Serial.scan`: both loops keep that, because a loop that passes an offset over finds its key taken
  when it comes to a later record of the key
- `Reach.inv`, `one_in_flight_in_order`: the same in every run, and what follows for the deliveries
-/

namespace IronBus

open WorkGroup KeyRouter LeaseTable List

/-! ## The router -/

namespace KeyRouter

section Marks

variable {r : KeyRouter} {k : Bytes} {o x : Nat}

theorem lookup_clearOffset (h : (r.clearOffset o).inFlight.lookup k = some x) :
    r.inFlight.lookup k = some x := by
  unfold clearOffset at h
  split at h
  · exact (Assoc.lookup_erase_eq_some.mp h).2
  · exact h

/-- Freeing an offset leaves the keys of the other offsets busy. -/
theorem lookup_clearOffset_of_ne (h : r.inFlight.lookup k = some x) (hne : x ≠ o) :
    (r.clearOffset o).inFlight.lookup k = some x := by
  unfold clearOffset
  split
  · rename_i e hfind
    have hmem := Assoc.mem_entries_iff.mp (mem_of_find?_eq_some hfind)
    have ho := find?_some hfind
    rw [beq_iff_eq] at ho
    have hk : k ≠ e.1 := by
      rintro rfl
      rw [hmem] at h
      exact hne ((Option.some.inj h).symm.trans ho)
    rwa [AList.lookup_erase_ne hk]
  · exact h

theorem lookup_retainAbove {c : Nat} :
    (r.retainAbove c).inFlight.lookup k = some x ↔ r.inFlight.lookup k = some x ∧ c ≤ x := by
  rw [retainAbove, Assoc.lookup_retain, Option.bind_eq_some_iff]
  constructor
  · rintro ⟨y, hy, hx⟩
    split at hx
    · cases hx
      exact ⟨hy, by assumption⟩
    · cases hx
  · rintro ⟨h, hle⟩
    exact ⟨x, h, if_pos hle⟩

theorem lookup_markInFlight_self (hk : k ≠ []) :
    (r.markInFlight k o).inFlight.lookup k = some o := by
  rw [markInFlight, if_neg hk, AList.lookup_insert]

theorem lookup_markInFlight_of_ne {k' : Bytes} (hne : k' ≠ k) :
    (r.markInFlight k o).inFlight.lookup k' = r.inFlight.lookup k' := by
  unfold markInFlight
  split
  · rfl
  · exact AList.lookup_insert_ne hne

@[simp] theorem members_clearOffset : (r.clearOffset o).members = r.members := by
  unfold clearOffset
  split <;> rfl

@[simp] theorem members_markInFlight : (r.markInFlight k o).members = r.members := by
  unfold markInFlight
  split <;> rfl

end Marks

/-! ### Owners -/

section Owner

variable [Checksums] {key : Bytes} {m m' m'' : Nat} {r : KeyRouter}

theorem atLeast_iff :
    atLeast key m m' = true
      ↔ score m' key < score m key ∨ (score m' key = score m key ∧ m' ≤ m) := by
  simp [atLeast]

theorem atLeast_refl (key : Bytes) (m : MemberId) : atLeast key m m = true :=
  atLeast_iff.mpr (.inr ⟨rfl, le_rfl⟩)

theorem atLeast_trans (h : atLeast key m m' = true) (h' : atLeast key m' m'' = true) :
    atLeast key m m'' = true := by
  rw [atLeast_iff] at *
  omega

theorem atLeast_total (h : ¬ atLeast key m m' = true) : atLeast key m' m = true := by
  rw [atLeast_iff] at *
  omega

theorem atLeast_antisymm (h : atLeast key m m' = true) (h' : atLeast key m' m = true) : m = m' := by
  rw [atLeast_iff] at *
  omega

/-- The scan keeps the heaviest member it has met. -/
theorem foldl_heavier (key : Bytes) (l : List MemberId) (b : MemberId) :
    ∃ m, l.foldl (heavier key) (some b) = some m ∧ m ∈ b :: l
      ∧ ∀ m' ∈ b :: l, atLeast key m m' = true := by
  induction l generalizing b with
  | nil =>
    refine ⟨b, rfl, mem_cons_self, fun m' hm => ?_⟩
    rw [mem_singleton.mp hm]
    exact atLeast_refl key b
  | cons a l ih =>
    rw [foldl_cons, heavier]
    by_cases hle : atLeast key a b = true
    · rw [if_pos hle]
      obtain ⟨m, heq, hmem, hmax⟩ := ih a
      refine ⟨m, heq, mem_cons_of_mem _ hmem, forall_mem_cons.2 ⟨?_, hmax⟩⟩
      exact atLeast_trans (hmax a mem_cons_self) hle
    · rw [if_neg hle]
      obtain ⟨m, heq, hmem, hmax⟩ := ih b
      obtain ⟨hb, hl⟩ := forall_mem_cons.1 hmax
      refine ⟨m, heq, cons_subset_cons b (subset_cons_self a l) hmem, forall_mem_cons.2 ⟨hb, ?_⟩⟩
      exact forall_mem_cons.2 ⟨atLeast_trans hb (atLeast_total hle), hl⟩

/-- The owner of a key is the heaviest live member. -/
theorem owner_eq_some_iff :
    r.owner key = some m ↔ m ∈ r.members ∧ ∀ m' ∈ r.members, atLeast key m m' = true := by
  unfold owner
  cases hmembers : r.members with
  | nil => simp
  | cons b l =>
    obtain ⟨x, heq, hmem, hmax⟩ := foldl_heavier key l b
    rw [foldl_cons, heavier, heq, Option.some.injEq]
    constructor
    · rintro rfl
      exact ⟨hmem, hmax⟩
    · rintro ⟨hm, hmax'⟩
      exact atLeast_antisymm (hmax m hm) (hmax' x hmem)

theorem owner_eq_none_iff : r.owner key = none ↔ r.members = [] := by
  unfold owner
  cases r.members with
  | nil => simp
  | cons b l =>
    obtain ⟨x, heq, -⟩ := foldl_heavier key l b
    simp [heavier, heq]

/-- A member that joins takes keys over only for itself. -/
theorem owner_join (h : (r.join m).2.owner key ≠ r.owner key) :
    (r.join m).2.owner key = some m := by
  unfold join at h ⊢
  split at h
  · exact absurd rfl h
  rename_i hnew
  rw [if_neg hnew]
  simp only at h ⊢
  cases hx : owner { r with members := m :: r.members } key with
  | none => exact absurd (owner_eq_none_iff.mp hx) (cons_ne_nil _ _)
  | some x =>
    obtain ⟨hmem, hmax⟩ := owner_eq_some_iff.mp hx
    rcases mem_cons.mp hmem with rfl | hmem
    · rfl
    · refine absurd ?_ h
      rw [hx]
      exact (owner_eq_some_iff.mpr
        ⟨hmem, fun m' hm => hmax m' (mem_cons_of_mem _ hm)⟩).symm

/-- A member that leaves gives up only its own keys. -/
theorem owner_leave (h : (r.leave m).2.owner key ≠ r.owner key) : r.owner key = some m := by
  unfold leave at h
  simp only at h
  cases hx : r.owner key with
  | none =>
    refine absurd ?_ h
    rw [hx, owner_eq_none_iff]
    simp [owner_eq_none_iff.mp hx]
  | some x =>
    by_contra hne
    have hxm : x ≠ m := fun heq => hne (congrArg some heq)
    obtain ⟨hmem, hmax⟩ := owner_eq_some_iff.mp hx
    refine h (hx ▸ owner_eq_some_iff.mpr ⟨?_, fun m' hm => hmax m' (mem_filter.mp hm).1⟩)
    exact mem_filter.mpr ⟨hmem, by simpa using hxm⟩

theorem owner_congr {r' : KeyRouter} (h : r'.members = r.members) (key : Bytes) :
    r'.owner key = r.owner key := by
  rw [owner, owner, h]

/-- A record with a key goes only to the owner, and not while another record of the key is out. -/
theorem decide_eq_deliver (hk : key ≠ []) {o : Nat} (h : r.decide m key o = .deliver) :
    r.owner key = some m ∧ ∀ x, r.inFlight.lookup key = some x → x = o := by
  unfold decide at h
  rw [if_neg hk] at h
  split at h
  · cases h
  · rename_i hbusy
    split at h
    · rename_i howner
      refine ⟨howner, fun x hx => ?_⟩
      by_contra hne
      exact hbusy (by simp [hx, hne])
    · cases h

/-- A record that is refused has a key that is taken or belongs to another member. -/
theorem decide_ne_deliver {o : Nat} (h : r.decide m key o ≠ .deliver) :
    key ≠ [] ∧ (r.owner key ≠ some m ∨ ∃ x, r.inFlight.lookup key = some x) := by
  unfold decide at h
  split at h
  · exact absurd rfl h
  rename_i hk
  refine ⟨hk, ?_⟩
  split at h
  · rename_i hbusy
    cases hx : r.inFlight.lookup key with
    | none => simp [hx] at hbusy
    | some x => exact .inr ⟨x, rfl⟩
  · split at h
    · exact absurd rfl h
    · rename_i howner
      exact .inl howner

end Owner

end KeyRouter

namespace KeyShared

/-! ## The invariant -/

/-- The router mirrors the leases: `keyOf` is the key of the record at an offset. -/
structure Serial (keyOf : Nat → Bytes) (g : WorkGroup) (router : KeyRouter) : Prop where
  wf : g.cursor.Wf
  stash : g.pendingMatch = none
  broadcast : g.broadcast = false
  shared : g.router = some router
  key : ∀ k o, router.inFlight.lookup k = some o → k ≠ [] ∧ keyOf o = k
  /-- Below a marked offset nothing of its key is left. -/
  lower : ∀ k o, router.inFlight.lookup k = some o →
    ∀ o' < o, keyOf o' = k → g.cursor.isAcked o' = true
  /-- A lease on a record that is not acknowledged marks its key. -/
  lease : ∀ o lease, g.leases.leases.get o = some lease → g.cursor.isAcked o = false →
    keyOf o ≠ [] → router.inFlight.lookup (keyOf o) = some o

/-- Every record of a key below `pos` that is not acknowledged keeps the later ones of its key from
the member. -/
def Blocked [Checksums] (keyOf : Nat → Bytes) (member : MemberId) (router : KeyRouter)
    (c : AckCursor) (pos : Nat) : Prop :=
  ∀ o < pos, c.isAcked o = false → keyOf o ≠ [] →
    router.owner (keyOf o) ≠ some member
      ∨ ∃ x < pos, router.inFlight.lookup (keyOf o) = some x

section Lemmas

variable {keyOf : Nat → Bytes} {env : PollEnv} {g g' : WorkGroup} {router router' : KeyRouter}

theorem isAcked_of_subset {c c' : AckCursor} (hsub : c.acked ⊆ c'.acked) {o : Nat}
    (h : c'.isAcked o = false) : c.isAcked o = false := by
  by_contra hne
  rw [Bool.not_eq_false] at hne
  have : c'.isAcked o = true := hsub hne
  rw [h] at this
  cases this

section

variable (h : Serial keyOf g router)

include h

/-- Anything that takes no lease, and frees no key whose record stays leased. -/
theorem Serial.step (hwf : g'.cursor.Wf)
    (hsub : g.cursor.acked ⊆ g'.cursor.acked) (hstash : g'.pendingMatch = none)
    (hbroadcast : g'.broadcast = false) (hshared : g'.router = some router')
    (hmarks : ∀ k x, router'.inFlight.lookup k = some x → router.inFlight.lookup k = some x)
    (hleases : ∀ o lease, g'.leases.leases.get o = some lease → g'.cursor.isAcked o = false →
      (∃ lease₀, g.leases.leases.get o = some lease₀)
        ∧ ∀ k, router.inFlight.lookup k = some o → router'.inFlight.lookup k = some o) :
    Serial keyOf g' router' := by
  refine ⟨hwf, hstash, hbroadcast, hshared, fun k o hk => h.key k o (hmarks k o hk),
    fun k o hk o' ho hkey => hsub (h.lower k o (hmarks k o hk) o' ho hkey),
    fun o lease hget hacked hne => ?_⟩
  obtain ⟨⟨lease₀, hget₀⟩, hkeep⟩ := hleases o lease hget hacked
  exact hkeep _ (h.lease o lease₀ hget₀ (isAcked_of_subset hsub hacked) hne)

/-- The same when the router stays as it is. -/
theorem Serial.same (hwf : g'.cursor.Wf)
    (hsub : g.cursor.acked ⊆ g'.cursor.acked) (hstash : g'.pendingMatch = none)
    (hbroadcast : g'.broadcast = false) (hshared : g'.router = some router)
    (hleases : ∀ o, g.leases.leases.get o = none → g'.leases.leases.get o = none) :
    Serial keyOf g' router := by
  refine h.step hwf hsub hstash hbroadcast hshared (fun _ _ hk => hk)
    fun o lease hget _ => ⟨?_, fun _ hk => hk⟩
  refine Option.ne_none_iff_exists'.mp fun hnone => ?_
  rw [hleases o hnone] at hget
  cases hget

/-- Acknowledging an offset, whether or not its key is freed and its lease dropped. -/
theorem Serial.settle {o : Nat} {leases : LeaseTable}
    {c : AckCursor} (hwf : c.Wf) (hsub : g.cursor.acked ⊆ c.acked) (ho : c.isAcked o = true)
    (hl : ∀ o', o' ≠ o → leases.leases.get o' = g.leases.leases.get o')
    {cleared : Option KeyRouter} (hk : Cleared g o cleared) :
    ∃ router', router'.members = router.members ∧ (∀ k x, router.inFlight.lookup k = some x →
        x ≠ o → router'.inFlight.lookup k = some x)
      ∧ Serial keyOf { g with leases := leases, router := cleared, cursor := c } router' := by
  have hleases : ∀ o' lease, leases.leases.get o' = some lease → c.isAcked o' = false →
      o' ≠ o ∧ ∃ lease₀, g.leases.leases.get o' = some lease₀ := fun o' lease hget hacked => by
    have hne : o' ≠ o := by
      rintro rfl
      rw [ho] at hacked
      cases hacked
    exact ⟨hne, lease, (hl o' hne).symm.trans hget⟩
  rcases hk with rfl | rfl
  · exact ⟨router, rfl, fun _ _ hk _ => hk, h.step hwf hsub h.stash h.broadcast h.shared
      (fun _ _ hk => hk)
      fun o' lease hget hacked => ⟨(hleases o' lease hget hacked).2, fun _ hk => hk⟩⟩
  · refine ⟨router.clearOffset o, members_clearOffset,
      fun _ _ hk hne => lookup_clearOffset_of_ne hk hne, ?_⟩
    refine h.step hwf hsub h.stash h.broadcast (by simp only [h.shared, Option.map_some])
      (fun _ _ hk => lookup_clearOffset hk) fun o' lease hget hacked => ?_
    obtain ⟨hne, hlease⟩ := hleases o' lease hget hacked
    exact ⟨hlease, fun _ hk => lookup_clearOffset_of_ne hk hne⟩

omit h in
/-- A loop that stops without a delivery does not answer with one. -/
theorem finish_silent {s : Scan} {why : ScanStop} {pos : Nat} (hpos : pos < env.flushed)
    (h : Silent pos why) :
    (∀ d, s.finish (some why) pos ≠ .ok (.message d))
      ∧ ∀ o n r reason, s.finish (some why) pos = .deadLetter o n r reason → o < env.flushed := by
  cases why with
  | poll p =>
    refine ⟨fun d hd => ?_, by simp [Scan.finish]⟩
    cases p with
    | message d => exact h
    | _ => cases hd
  | failed e => simp [Scan.finish]
  | park o n r reason =>
    simp only [Scan.finish]
    cases s.filteredFrom with
    | some start => simp
    | none =>
      refine ⟨by simp, fun o' n' r' reason' heq => ?_⟩
      cases heq
      rw [h]
      exact hpos
  | hold =>
    simp only [Scan.finish]
    cases s.filteredFrom <;> simp

/-- A record goes out whose key is free, or taken by the record itself, with nothing of its key
left below. -/
theorem Serial.hand {o n : Nat} {token : LeaseToken}
    {leases : LeaseTable} (hg : Granted env g o token n leases)
    (honly : keyOf o ≠ [] → ∀ x, router.inFlight.lookup (keyOf o) = some x → x = o)
    (hlower : keyOf o ≠ [] → ∀ o' < o, keyOf o' = keyOf o → g.cursor.isAcked o' = true) :
    Serial keyOf { g with leases := leases, router := some (router.markInFlight (keyOf o) o) }
      (router.markInFlight (keyOf o) o) := by
  obtain ⟨lease₀, hleases, -⟩ := (claim_granted hg.claim).lease
  have hmark {k : Bytes} {x : Nat}
      (hk : (router.markInFlight (keyOf o) o).inFlight.lookup k = some x) :
      router.inFlight.lookup k = some x ∨ (k = keyOf o ∧ keyOf o ≠ [] ∧ x = o) := by
    by_cases hne : k = keyOf o
    · subst hne
      by_cases hempty : keyOf o = []
      · rw [markInFlight, if_pos hempty] at hk
        exact .inl hk
      · rw [lookup_markInFlight_self hempty] at hk
        exact .inr ⟨rfl, hempty, (Option.some.inj hk).symm⟩
    · rw [lookup_markInFlight_of_ne hne] at hk
      exact .inl hk
  refine ⟨h.wf, h.stash, h.broadcast, rfl, fun k x hk => ?_, fun k x hk o' ho' hkey => ?_,
    fun o' lease hget hacked hkey => ?_⟩
  · rcases hmark hk with hk | ⟨rfl, hempty, rfl⟩
    · exact h.key k x hk
    · exact ⟨hempty, rfl⟩
  · rcases hmark hk with hk | ⟨rfl, hempty, rfl⟩
    · exact h.lower k x hk o' ho' hkey
    · exact hlower hempty o' ho' hkey
  · by_cases ho : o' = o
    · subst ho
      exact lookup_markInFlight_self hkey
    · have hget' : leases.leases.get o' = some lease := hget
      rw [hleases, NatMap.get_insert_of_ne ho] at hget'
      have hold := h.lease o' lease hget' hacked hkey
      have hne : keyOf o' ≠ keyOf o := fun heq => ho (honly (heq ▸ hkey) o' (heq ▸ hold))
      rw [lookup_markInFlight_of_ne hne]
      exact hold

/-- Freeing the keys below the watermark frees none that is needed. -/
theorem Serial.retain :
    Serial keyOf (g.retainKeys g.cursor.committed) (router.retainAbove g.cursor.committed) := by
  refine h.step h.wf subset_rfl h.stash h.broadcast
    (by simp only [retainKeys, h.shared, Option.map_some])
    (fun _ _ hk => (lookup_retainAbove.mp hk).1)
    fun o lease hget hacked =>
      ⟨⟨lease, hget⟩, fun k hk => lookup_retainAbove.mpr ⟨hk, ?_⟩⟩
  by_contra hlt
  have hacked' : g.cursor.isAcked o = false := hacked
  simp [AckCursor.isAcked, not_le.mp hlt] at hacked'

/-- Waking up takes no lease. -/
theorem Serial.wake (now : Nat) :
    Serial keyOf ((g.touch now).pauseActive now).2 router
      ∧ ((g.touch now).pauseActive now).2.cursor = g.cursor := by
  obtain ⟨leases, paused, heq, hsettles, -⟩ := (g.touch now).pauseActive_eq now
  rw [heq]
  exact ⟨h.same h.wf subset_rfl h.stash h.broadcast h.shared hsettles.free, rfl⟩

/-- The group starts over, and forgets no acknowledgement that it still needs. -/
theorem Serial.reset {earliest : Nat} (hwidth : earliest ≤ u64Max)
    (hacked : ∀ o, earliest ≤ o → g.cursor.isAcked o = false)
    (hmarks : ∀ k x, router'.inFlight.lookup k = some x → router.inFlight.lookup k = some x)
    (hcursor : g'.cursor = .resume earliest) (hleases : ∀ o, g'.leases.leases.get o = none)
    (hstash : g'.pendingMatch = none) (hbroadcast : g'.broadcast = false)
    (hshared : g'.router = some router') : Serial keyOf g' router' := by
  refine ⟨hcursor ▸ AckCursor.resume_wf hwidth, hstash, hbroadcast, hshared,
    fun k o hk => h.key k o (hmarks k o hk), fun k o hk o' ho hkey => ?_,
    fun o lease hget => absurd hget (by simp [hleases o])⟩
  have hold := h.lower k o (hmarks k o hk) o' ho hkey
  have hlt : o' < earliest := by
    by_contra hle
    rw [hacked o' (not_lt.mp hle)] at hold
    cases hold
  simp [AckCursor.isAcked, hcursor, AckCursor.resume, hlt]

end

end Lemmas

/-! ## A whole loop -/

/-- The log has one key for each offset. -/
structure Stored (keyOf : Nat → Bytes) (env : PollEnv) : Prop where
  key : ∀ o r, Reads env o r → r.key = keyOf o
  earliest_le : env.earliest ≤ env.flushed
  width : env.flushed ≤ u64Max

/-- The state of a loop at `pos`, that started in the group `g₀` with the router `r₀`. -/
structure Looped [Checksums] (keyOf : Nat → Bytes) (member : MemberId) (g₀ : WorkGroup)
    (r₀ : KeyRouter) (pos : Nat) (g : WorkGroup) (router : KeyRouter) : Prop
    extends Serial keyOf g router where
  members : router.members = r₀.members
  acked : g₀.cursor.acked ⊆ g.cursor.acked
  blocked : Blocked keyOf member router g.cursor pos

/-- What a loop comes to: a record with a key goes to the owner, and nothing of the key is left
below it. -/
structure Ended [Checksums] (keyOf : Nat → Bytes) (env : PollEnv) (member : MemberId)
    (g₀ : WorkGroup) (r₀ : KeyRouter) (e : PollEnd) (g : WorkGroup) (router : KeyRouter) : Prop
    extends Serial keyOf g router where
  members : router.members = r₀.members
  acked : g₀.cursor.acked ⊆ g.cursor.acked
  message : ∀ d, e = .ok (.message d) → keyOf d.offset ≠ [] →
    r₀.owner (keyOf d.offset) = some member
      ∧ ∀ o < d.offset, keyOf o = keyOf d.offset → g.cursor.isAcked o = true
  parked : ∀ o n r reason, e = .deadLetter o n r reason → o < env.flushed

section Loops

variable [Checksums] {keyOf : Nat → Bytes} {env : PollEnv} {member : MemberId}
  {g₀ g : WorkGroup} {r₀ router : KeyRouter} {pos : Nat} {s : Scan}

theorem Blocked.owner_eq {router' : KeyRouter} {c c' : AckCursor}
    (h : Blocked keyOf member router c pos) (hmembers : router'.members = router.members)
    (hsub : c.acked ⊆ c'.acked)
    (hmarks : ∀ k x, router.inFlight.lookup k = some x → x < pos →
      router'.inFlight.lookup k = some x) : Blocked keyOf member router' c' pos := by
  intro o ho hacked hkey
  rw [owner_congr hmembers]
  refine (h o ho (isAcked_of_subset hsub hacked) hkey).imp_right ?_
  rintro ⟨x, hx, hk⟩
  exact ⟨x, hx, hmarks _ x hk hx⟩

/-- One more offset is blocked once it is acknowledged or its key is taken or not the member's. -/
theorem Blocked.succ {c : AckCursor} (h : Blocked keyOf member router c pos)
    (hpos : c.isAcked pos = false → keyOf pos ≠ [] → router.owner (keyOf pos) ≠ some member
      ∨ ∃ x < pos + 1, router.inFlight.lookup (keyOf pos) = some x) :
    Blocked keyOf member router c (pos + 1) := by
  intro o ho hacked hkey
  rcases Nat.lt_succ_iff_lt_or_eq.mp ho with hlt | rfl
  · refine (h o hlt hacked hkey).imp_right ?_
    rintro ⟨x, hx, hk⟩
    exact ⟨x, by omega, hk⟩
  · exact hpos hacked hkey

/-- An offset that the loop passes over blocks the later ones of its key. -/
theorem Serial.passed (h : Serial keyOf g router) (hstored : Stored keyOf env)
    (why : Passed env member g pos) (hacked : g.cursor.isAcked pos = false)
    (hkey : keyOf pos ≠ []) :
    router.owner (keyOf pos) ≠ some member
      ∨ ∃ x < pos + 1, router.inFlight.lookup (keyOf pos) = some x := by
  rcases why with hyes | ⟨lease, hget⟩ | ⟨r, router', hr, hrouter, hroute⟩
  · rw [hacked] at hyes
    cases hyes
  · exact .inr ⟨pos, Nat.lt_succ_self _, h.lease pos lease hget hacked hkey⟩
  · rw [h.shared] at hrouter
    obtain rfl := Option.some.inj hrouter
    rw [hstored.key pos r hr] at hroute
    refine (decide_ne_deliver hroute).2.imp_right ?_
    rintro ⟨x, hx⟩
    refine ⟨x, ?_, hx⟩
    -- a mark above an offset of its key that is not acknowledged cannot be
    by_contra hle
    have := h.lower _ x hx pos (by omega) rfl
    rw [hacked] at this
    cases this

theorem Looped.next {s' : Scan} (h : Looped keyOf member g₀ r₀ pos g router)
    (hstored : Stored keyOf env) (hpos : pos < env.flushed)
    (hturn : Routed env member pos g (.next s')) :
    ∃ router', Looped keyOf member g₀ r₀ (pos + 1) s'.group router' := by
  cases hturn with
  | pass hs why =>
    have hserial : Serial keyOf s'.group router ∧ s'.group.cursor = g.cursor := by
      rcases hs with hs | ⟨d, hs⟩
      · rw [hs]
        exact ⟨h.toSerial, rfl⟩
      · rw [hs]
        exact ⟨h.same h.wf subset_rfl h.stash h.broadcast h.shared
          (deferRedelivery_relet ..).settles.free, rfl⟩
    obtain ⟨hserial, hcursor⟩ := hserial
    refine ⟨router, hserial, h.members, hcursor ▸ h.acked, ?_⟩
    rw [hcursor]
    exact h.blocked.succ (h.passed hstored why)
  | skip hs hl hk =>
    obtain ⟨hwf, hset⟩ := h.wf.ack pos
    have hsub : g.cursor.acked ⊆ (g.cursor.ack pos).2.acked := fun x hx => (hset x).mpr (.inl hx)
    have hacked : (g.cursor.ack pos).2.isAcked pos = true :=
      (hset pos).mpr (.inr ⟨rfl, hpos.trans_le hstored.width⟩)
    obtain ⟨router', hmembers, hmarks, hserial⟩ :=
      h.settle hwf hsub hacked (fun o' hne => hl.get_of_ne hne) hk
    refine ⟨router', hs ▸ hserial, hmembers.trans h.members, hs ▸ h.acked.trans hsub, ?_⟩
    rw [hs]
    refine (h.blocked.owner_eq hmembers hsub fun k x hk hx => hmarks k x hk (by omega)).succ
      fun hno => ?_
    rw [hacked] at hno
    cases hno

/-- A loop that ends without a delivery. -/
theorem Looped.ended {e : PollEnd} (h : Looped keyOf member g₀ r₀ pos g router)
    (hmsg : ∀ d, e ≠ .ok (.message d))
    (hparked : ∀ o n r reason, e = .deadLetter o n r reason → o < env.flushed) :
    Ended keyOf env member g₀ r₀ e g router :=
  ⟨h.toSerial, h.members, h.acked, fun d hd => absurd hd (hmsg d), hparked⟩

theorem Looped.stop {s' : Scan} {why : ScanStop} (h : Looped keyOf member g₀ r₀ pos g router)
    (hstored : Stored keyOf env) (hpos : pos < env.flushed)
    (hturn : Routed env member pos g (.stop why s')) :
    ∃ router', Ended keyOf env member g₀ r₀ (s'.finish (some why) pos) s'.group router' := by
  cases hturn with
  | halt hs hwhy =>
    obtain ⟨hmsg, hparked⟩ := finish_silent (s := s') hpos hwhy
    exact ⟨router, hs ▸ h.ended hmsg hparked⟩
  | @hole _ start stop next hs =>
    obtain ⟨hwf, hset⟩ := h.wf.ackRange pos next
    have hsub : g.cursor.acked ⊆ (g.cursor.ackRange pos next).acked :=
      fun x hx => (hset x).mpr (.inl hx)
    rw [hs]
    exact ⟨router, h.same hwf hsub h.stash h.broadcast h.shared fun _ hget => hget,
      h.members, h.acked.trans hsub, nofun, nofun⟩
  | @park _ n n' token leases r reason hg hs =>
    have hwhy : Silent pos (.park pos n' r reason) := rfl
    obtain ⟨hmsg, hparked⟩ := finish_silent (s := s') hpos hwhy
    have hclaimed := claim_granted hg.claim
    rw [hs]
    -- the lease is given up, and the mark with it
    refine ⟨router.clearOffset pos, ?_, members_clearOffset.trans h.members, h.acked,
      fun d hd => absurd hd (hmsg d), hparked⟩
    refine h.step h.wf subset_rfl h.stash h.broadcast (by simp only [h.shared, Option.map_some])
      (fun _ _ hk => lookup_clearOffset hk) fun o lease hget _ => ?_
    have hne : o ≠ pos := by
      rintro rfl
      rw [hclaimed.ack_eq, NatMap.get_erase_self] at hget
      cases hget
    rw [hg.freed.get_of_ne hne] at hget
    exact ⟨⟨lease, hget⟩, fun _ hk => lookup_clearOffset_of_ne hk hne⟩
  | @hand _ n token leases r router' hg hr hrouter hroute hs =>
    obtain rfl := Option.some.inj (h.shared.symm.trans hrouter)
    have hkey := hstored.key pos r hr
    rw [hkey] at hroute hs
    have hroute (hne : keyOf pos ≠ []) := decide_eq_deliver hne hroute
    -- a lower record of the key would have blocked this one
    have hlower : keyOf pos ≠ [] →
        ∀ o < pos, keyOf o = keyOf pos → g.cursor.isAcked o = true := fun hne o ho heq => by
      by_contra hno
      rcases h.blocked o ho (Bool.eq_false_iff.mpr hno) (heq ▸ hne) with howner | ⟨x, hx, hk⟩
      · exact howner (heq ▸ (hroute hne).1)
      · have := (hroute hne).2 x (heq ▸ hk)
        omega
    rw [hs]
    refine ⟨_, h.hand hg (fun hne => (hroute hne).2) hlower, ?_, h.acked, fun d hd => ?_, nofun⟩
    · exact members_markInFlight.trans h.members
    · cases hd
      refine fun hne => ⟨?_, hlower hne⟩
      rw [← owner_congr h.members]
      exact (hroute hne).1

/-- A scan with either loop. -/
theorem Serial.scan (h : Serial keyOf g router) (hstored : Stored keyOf env) (cfg : EngineConfig)
    (visit : Nat → Scan → Turn Scan ScanStop) (budget : RetryBudget)
    (hvisit : ∀ o (s : Scan), o < env.flushed → s.filteredFrom = none → s.group.filter = g.filter →
      s.group.pendingMatch = none → RoutedTurn cfg env member o s.group (visit o s)) :
    ∃ router', Ended keyOf env member g router (g.scan cfg env visit budget).1
      (g.scan cfg env visit budget).2.2 router' := by
  have lt_flushed {pos : Nat} (hle : g.cursor.committed ≤ pos) (hlt : pos < g.cursor.committed
      + (windowEnd cfg env g.cursor.committed - g.cursor.committed)) :
      pos < env.flushed := by
    have : windowEnd cfg env g.cursor.committed ≤ env.flushed := min_le_right _ _
    omega
  refine scanWindow_rule
    (fun pos (s : Scan) => g.cursor.committed ≤ pos ∧ s.filteredFrom = none
      ∧ s.group.filter = g.filter ∧ ∃ router', Looped keyOf member g router pos s.group router')
    (fun (res : Option ScanStop × Nat × Scan) => ∃ router', Ended keyOf env member g router
      (res.2.2.finish res.1 res.2.1) res.2.2.group router')
    (g.cursor.committed + (windowEnd cfg env g.cursor.committed - g.cursor.committed))
    ?_ ?_ ?_ _ _ _ le_rfl
      ⟨le_rfl, rfl, rfl, router, h, rfl, subset_rfl, fun o ho hacked _ => ?_⟩
  · rintro pos s s' hlt ⟨hle, hf, hfilter, router', hloop⟩ heq
    have hturn := hvisit pos s (lt_flushed hle hlt) hf hfilter hloop.stash
    rw [heq] at hturn
    exact ⟨by omega, hturn.visits.2 s' rfl, hturn.visits.1.2.1.trans hfilter,
      hloop.next hstored (lt_flushed hle hlt) (hturn.routed ⟨router', hloop.shared⟩)⟩
  · rintro pos s why s' hlt ⟨hle, hf, hfilter, router', hloop⟩ heq
    have hturn := hvisit pos s (lt_flushed hle hlt) hf hfilter hloop.stash
    rw [heq] at hturn
    exact hloop.stop hstored (lt_flushed hle hlt) (hturn.routed ⟨router', hloop.shared⟩)
  · rintro pos s ⟨-, -, -, router', hloop⟩
    refine ⟨router', hloop.ended ?_ ?_⟩
    all_goals
      simp only [Scan.finish]
      cases s.filteredFrom <;> simp
  · -- nothing below the watermark is left
    simp [AckCursor.isAcked, ho] at hacked

theorem Ended.rebase {g₁ : WorkGroup} {r₁ : KeyRouter} {e : PollEnd}
    (h : Ended keyOf env member g₁ r₁ e g router) (hcursor : g₁.cursor = g₀.cursor)
    (hmembers : r₁.members = r₀.members) : Ended keyOf env member g₀ r₀ e g router := by
  refine ⟨h.toSerial, h.members.trans hmembers, hcursor ▸ h.acked, fun d hd hkey => ?_, h.parked⟩
  rw [← owner_congr hmembers]
  exact h.message d hd hkey

/-- A poll by a member: a loop, or a reset. -/
theorem Serial.pollInStream (h : Serial keyOf g router) (hstored : Stored keyOf env) (home : Home)
    (cfg : EngineConfig) (member : MemberId) (budget : RetryBudget)
    (hreset : ForgetsNothing env g.cursor) :
    let res := g.pollInStream home cfg env (some member) budget
    (∃ router', Ended keyOf env member g router res.1 res.2.2 router')
      ∨ ∃ skipped router', res.1 = .ok (.truncated env.earliest skipped)
        ∧ g.cursor.committed < env.earliest
        ∧ Serial keyOf res.2.2 router' ∧ res.2.2.cursor = .resume env.earliest := by
  have hidle {g' : WorkGroup} (h' : Serial keyOf g' router) (hcursor : g'.cursor = g.cursor) :
      Ended keyOf env member g router (.ok .idle) g' router :=
    ⟨h', rfl, hcursor ▸ subset_rfl, nofun, nofun⟩
  obtain ⟨hwake, hcursor⟩ := h.wake env.now
  have hwidth := hstored.earliest_le.trans hstored.width
  have hmode : g.keyOrdering = .keyShared := by simp [WorkGroup.keyOrdering, h.shared]
  rcases hwoken : (g.touch env.now).pauseActive env.now with ⟨paused, g₁⟩
  rw [hwoken] at hwake hcursor
  cases home with
  | default =>
    simp only [WorkGroup.pollInStream, WorkGroup.pollInMember, hmode, WorkGroup.pollMember, hwoken]
    cases paused with
    | true => exact .inl ⟨router, hidle hwake hcursor⟩
    | false =>
      simp only
      split_ifs with hlt
      · -- the group starts over at the front of the log
        have hlt' : g.cursor.committed < env.earliest := hcursor ▸ hlt
        have hshared : g₁.router = some router := hwake.shared
        refine .inr ⟨_, router.retainAbove env.earliest, rfl, hlt', ?_, rfl⟩
        exact hwake.reset hwidth (fun o ho => hcursor ▸ hreset hlt' o ho)
          (fun k x hk => (lookup_retainAbove.mp hk).1) rfl (fun _ => rfl) hwake.stash
          hwake.broadcast (by
            simp only [WorkGroup.retainKeys, WorkGroup.resetTo, hshared, Option.map_some])
      · obtain ⟨router', hended⟩ :=
          hwake.retain.scan hstored cfg (WorkGroup.visitMember cfg env member)
          budget fun o s ho hf _ _ => visits_member ho member s hf
        exact .inl ⟨router', hended.rebase hcursor rfl⟩
  | named =>
    have hretain := hwake.retain
    simp only [WorkGroup.pollInStream, Option.getD_some, WorkGroup.pollNamed, hwoken]
    cases paused with
    | true => exact .inl ⟨router, hidle hwake hcursor⟩
    | false =>
      have hmatch : g₁.pendingMatch = none := hwake.stash
      simp only [hmatch]
      split
      · rename_i hlt
        have hlt' : g.cursor.committed < env.earliest := hcursor ▸ hlt
        refine .inr ⟨_, router.retainAbove g₁.cursor.committed, rfl, hlt', ?_, rfl⟩
        exact hretain.reset hwidth (fun o ho => hcursor ▸ hreset hlt' o ho) (fun _ _ hk => hk) rfl
          (fun _ => rfl) hretain.stash hretain.broadcast hretain.shared
      · have hrouted : (g₁.retainKeys g₁.cursor.committed).router.isSome = true := by
          rw [hretain.shared]
          rfl
        rw [if_pos hrouted]
        obtain ⟨router', hended⟩ := hretain.scan hstored { cfg with deadLetterExpired := false }
          (WorkGroup.visitNamedMember { cfg with deadLetterExpired := false } env g₁.pattern member)
          budget fun o s ho hf hfilter hstash => by
            have hpattern : g₁.pattern = s.group.pattern := by rw [pattern, pattern, hfilter]; rfl
            rw [hpattern]
            exact visits_namedMember ho member s hstash rfl hf
        exact .inl ⟨router', hended.rebase hcursor rfl⟩

end Loops

/-! ## Runs -/

/-- A key-shared group, and the offsets it has delivered. -/
structure World where
  group : WorkGroup
  budget : RetryBudget
  delivered : Nat → Bool

namespace World

/-- A group that was put in key-shared mode. -/
def start (g : WorkGroup) (budget : RetryBudget) : World :=
  ⟨g.setKeyOrdering .keyShared, budget, fun _ => false⟩

/-- The world after a poll. A record to dead-letter is passed once its copies are `durable`. -/
def polled (home : Home) (durable : Bool) (w : World) (res : PollEnd × RetryBudget × WorkGroup) :
    World :=
  let w := { w with budget := res.2.1, group := res.2.2 }
  match res.1 with
  | .ok (.message d) => { w with delivered := fun o => w.delivered o || decide (o = d.offset) }
  | .deadLetter o _ _ _ => if durable then { w with group := w.group.deadLetterPast home o } else w
  | _ => w

end World

/-- What a step shows to the members. -/
inductive Event where
  | delivered (member : MemberId) (offset : Nat)
  | joined (member : MemberId)
  | left (member : MemberId)
  | other

/-- What the answer to a poll shows. -/
def Event.ofPoll (member : MemberId) : PollEnd → Event
  | .ok (.message d) => .delivered member d.offset
  | _ => .other

section Steps

variable [Checksums]

/-- The steps of a key-shared group. -/
inductive Step (home : Home) (cfg : EngineConfig) (keyOf : Nat → Bytes) :
    World → Event → World → Prop where
  | join {w : World} (member : MemberId) :
    Step home cfg keyOf w (.joined member) { w with group := w.group.joinMember member }
  | leave {w : World} (member : MemberId) :
    Step home cfg keyOf w (.left member) { w with group := w.group.leaveMember member }
  | poll {w : World} (env : PollEnv) (member : MemberId) (durable : Bool)
    (hstored : Stored keyOf env)
    (hreset : ForgetsNothing env w.group.cursor) :
    Step home cfg keyOf w
      (.ofPoll member (w.group.pollInStream home cfg env (some member) w.budget).1)
      (w.polled home durable (w.group.pollInStream home cfg env (some member) w.budget))
  | ack {w : World} (now : Nat) (token : LeaseToken) :
    Step home cfg keyOf w .other { w with group := (w.group.ackIn cfg now token).2 }
  | term {w : World} (env : PollEnv) (written : Except EngineError Unit) (token : LeaseToken) :
    Step home cfg keyOf w .other { w with group := (w.group.termIn cfg env written token).2 }
  | nack {w : World} (now : Nat) (token : LeaseToken) (delayMs : Nat) :
    Step home cfg keyOf w .other { w with group := (w.group.nackIn cfg now token delayMs).2 }
  | progress {w : World} (now : Nat) (token : LeaseToken) :
    Step home cfg keyOf w .other { w with group := (w.group.progressIn now token).2 }
  | cumulativeAck {w : World} (env : PollEnv) (upTo : Nat) :
    Step home cfg keyOf w .other { w with group := (w.group.cumulativeAckIn env upTo).2 }

def Reach (home : Home) (cfg : EngineConfig) (keyOf : Nat → Bytes) : World → World → Prop :=
  Relation.ReflTransGen fun w w' => ∃ e, Step home cfg keyOf w e w'

end Steps

/-- The router mirrors the leases, and below a record that was delivered and is not acknowledged
nothing of its key is left. -/
structure Inv (keyOf : Nat → Bytes) (w : World) (router : KeyRouter) : Prop
    extends Serial keyOf w.group router where
  order : ∀ o, w.delivered o = true → w.group.cursor.isAcked o = false → keyOf o ≠ [] →
    ∀ o' < o, keyOf o' = keyOf o → w.group.cursor.isAcked o' = true

section Runs

variable {home : Home} {cfg : EngineConfig} {keyOf : Nat → Bytes} {w w' : World}
  {router router' : KeyRouter} {g : WorkGroup}

/-- The invariant with a group that has acknowledged no less. -/
theorem Inv.regroup (h : Inv keyOf w router) (hserial : Serial keyOf g router')
    (hsub : w.group.cursor.acked ⊆ g.cursor.acked) : Inv keyOf { w with group := g } router' :=
  ⟨hserial, fun o hd hacked hkey o' ho heq =>
    hsub (h.order o hd (isAcked_of_subset hsub hacked) hkey o' ho heq)⟩

/-- An acknowledgement frees the key of its offset, unless it is shed. -/
theorem Inv.acked (h : Inv keyOf w router) (now : Nat) (token : LeaseToken) :
    ∃ router', Inv keyOf { w with group := (w.group.ackIn cfg now token).2 } router' := by
  rcases w.group.ackIn_cases cfg now token with ⟨-, heq⟩ | ⟨-, -, heq⟩ | ⟨howned, hshed, heq⟩
  · rw [heq]
    exact ⟨router, h.regroup (h.same h.wf subset_rfl h.stash h.broadcast h.shared
      fun _ hget => hget) subset_rfl⟩
  · rw [heq]
    exact ⟨router, h.regroup (h.same h.wf subset_rfl h.stash h.broadcast h.shared
      (ack_settles _ _).free) subset_rfl⟩
  · rw [heq]
    obtain ⟨hwf, hsub⟩ := h.wf.ackBounded token.offset cfg.maxAckedAheadRuns
    obtain ⟨lease₀, howned⟩ := Option.ne_none_iff_exists'.mp howned
    have hack : (w.group.leases.ack token).2.leases = w.group.leases.leases.erase token.offset := by
      rw [LeaseTable.ack, howned]
    refine ⟨router.clearOffset token.offset, h.regroup (h.step hwf hsub h.stash h.broadcast ?_
      (fun _ _ hk => lookup_clearOffset hk) fun o lease hget _ => ?_) hsub⟩
    · simp only [clearKey, touch, h.shared, Option.map_some]
    · have hget' : (w.group.leases.ack token).2.leases.get o = some lease := hget
      rw [hack] at hget'
      have hne : o ≠ token.offset := by
        rintro rfl
        rw [NatMap.get_erase_self] at hget'
        cases hget'
      rw [NatMap.get_erase_of_ne hne] at hget'
      exact ⟨⟨lease, hget'⟩, fun _ hk => lookup_clearOffset_of_ne hk hne⟩

/-- Members come and go without touching the marks. -/
theorem Inv.remember (h : Inv keyOf w router) (f : KeyRouter → KeyRouter)
    (hf : (f router).inFlight = router.inFlight) :
    Inv keyOf { w with group := { w.group with router := w.group.router.map f } } (f router) := by
  refine h.regroup ?_ subset_rfl
  exact h.step h.wf subset_rfl h.stash h.broadcast (by simp only [h.shared, Option.map_some])
    (fun _ _ hk => hf ▸ hk) fun o lease hget _ => ⟨⟨lease, hget⟩, fun _ hk => hf ▸ hk⟩

theorem inFlight_join (r : KeyRouter) (member : MemberId) :
    (r.join member).2.inFlight = r.inFlight := by
  unfold join
  split <;> rfl

section Polls

variable [Checksums]

theorem Inv.polled (h : Inv keyOf w router) (home : Home) (cfg : EngineConfig) (env : PollEnv)
    (member : MemberId) (durable : Bool)
    (hstored : Stored keyOf env) (hreset : ForgetsNothing env w.group.cursor) :
    (∃ router', Inv keyOf (w.polled home durable
        (w.group.pollInStream home cfg env (some member) w.budget)) router')
      ∧ ∀ d, (w.group.pollInStream home cfg env (some member) w.budget).1 = .ok (.message d) →
        keyOf d.offset ≠ [] → router.owner (keyOf d.offset) = some member
          ∧ ∀ o < d.offset, keyOf o = keyOf d.offset →
            (w.polled home durable (w.group.pollInStream home cfg env (some member)
              w.budget)).group.cursor.isAcked o = true := by
  have hpoll := h.toSerial.pollInStream hstored home cfg member w.budget hreset
  revert hpoll
  generalize w.group.pollInStream home cfg env (some member) w.budget = res
  obtain ⟨e, budget, g'⟩ := res
  intro hpoll
  rcases hpoll with ⟨router', hended⟩ | ⟨skipped, router', heq, hbehind, hserial, hcursor⟩
  · -- the loop has ended: only a delivery or a durable dead letter changes more
    have hkeep : Inv keyOf { w with budget := budget, group := g' } router' := by
      exact ⟨hended.toSerial, (h.regroup hended.toSerial hended.acked).order⟩
    cases e with
    | error e => exact ⟨⟨router', hkeep⟩, nofun⟩
    | ok p =>
      cases p with
      | message d =>
        refine ⟨⟨router', hended.toSerial, fun o hd hacked hkey => ?_⟩, fun d' hd' hkey => ?_⟩
        · simp only [World.polled, Bool.or_eq_true, decide_eq_true_eq] at hd
          rcases hd with hd | rfl
          · exact hkeep.order o hd hacked hkey
          · exact (hended.message d rfl hkey).2
        · cases hd'
          exact hended.message d rfl hkey
      | _ => exact ⟨⟨router', hkeep⟩, nofun⟩
    | deadLetter o n r reason =>
      refine ⟨?_, nofun⟩
      cases durable with
      | false => exact ⟨router', hkeep⟩
      | true =>
        have ho : o < u64Max := (hended.parked o n r reason rfl).trans_le hstored.width
        obtain ⟨hwf, hset⟩ := hended.wf.ack o
        have hsub : g'.cursor.acked ⊆ (g'.cursor.ack o).2.acked :=
          fun x hx => (hset x).mpr (.inl hx)
        have hacked : (g'.cursor.ack o).2.isAcked o = true := (hset o).mpr (.inr ⟨rfl, ho⟩)
        cases home with
        | default =>
          obtain ⟨router'', -, -, hserial⟩ :=
            hended.settle hwf hsub hacked (fun _ _ => rfl) (.inr rfl)
          exact ⟨router'', hkeep.regroup hserial hsub⟩
        | named =>
          obtain ⟨router'', -, -, hserial⟩ :=
            hended.settle hwf hsub hacked (fun _ _ => rfl) (.inl rfl)
          exact ⟨router'', hkeep.regroup hserial hsub⟩
  · -- the log was truncated: what the cursor lost lies below the new start
    have heq' : e = .ok (.truncated env.earliest skipped) := heq
    subst heq'
    refine ⟨⟨router', hserial, fun o hd hacked hkey o' ho heq => ?_⟩, nofun⟩
    have hcursor' : g'.cursor = .resume env.earliest := hcursor
    have hle : env.earliest ≤ o := by
      have hacked' : g'.cursor.isAcked o = false := hacked
      by_contra hlt
      simp [hcursor', AckCursor.isAcked, AckCursor.resume, not_le.mp hlt] at hacked'
    have hold := h.order o hd (hreset hbehind o hle) hkey o' ho heq
    have hlt : o' < env.earliest := by
      by_contra hge
      rw [hreset hbehind o' (not_lt.mp hge)] at hold
      cases hold
    show g'.cursor.isAcked o' = true
    simp [hcursor', AckCursor.isAcked, AckCursor.resume, hlt]

theorem Step.inv {e : Event} (h : Step home cfg keyOf w e w') (hinv : Inv keyOf w router) :
    ∃ router', Inv keyOf w' router' := by
  cases h with
  | join member => exact ⟨_, hinv.remember (fun r => (r.join member).2) (inFlight_join _ _)⟩
  | leave member => exact ⟨_, hinv.remember (fun r => (r.leave member).2) rfl⟩
  | poll env member durable hstored hreset =>
    exact (hinv.polled home cfg env member durable hstored hreset).1
  | ack now token => exact hinv.acked now token
  | term env written token =>
    rcases w.group.termIn_cases cfg env written token with heq | ⟨heq, -⟩
    · rw [heq]
      exact hinv.acked env.now token
    · rw [heq]
      exact ⟨router, hinv⟩
  | nack now token delayMs =>
    obtain ⟨d, heq, -⟩ := w.group.nackIn_eq cfg now token delayMs
    rw [heq]
    exact ⟨router, hinv.regroup (hinv.same hinv.wf subset_rfl hinv.stash hinv.broadcast hinv.shared
      (nack_relet ..).settles.free) subset_rfl⟩
  | progress now token =>
    rw [(w.group.progressIn_eq now token).1]
    exact ⟨router, hinv.regroup (hinv.same hinv.wf subset_rfl hinv.stash hinv.broadcast hinv.shared
      (extend_relet ..).settles.free) subset_rfl⟩
  | cumulativeAck env upTo =>
    -- a key-shared group takes no cumulative acknowledgement
    rw [cumulativeAckIn, if_pos hinv.broadcast]
    exact ⟨router, hinv⟩

theorem Reach.inv (h : Reach home cfg keyOf w w') (hinv : ∃ router, Inv keyOf w router) :
    ∃ router, Inv keyOf w' router := by
  induction h with
  | refl => exact hinv
  | tail _ hstep ih =>
    obtain ⟨e, hstep⟩ := hstep
    obtain ⟨router, ih⟩ := ih
    exact hstep.inv ih

/-- What a step that shows something did. -/
theorem Inv.event {e : Event} (hinv : Inv keyOf w router) : Step home cfg keyOf w e w' →
    match e with
    | .joined member => w'.group = w.group.joinMember member
    | .left member => w'.group = w.group.leaveMember member
    | .delivered member o => keyOf o ≠ [] → router.owner (keyOf o) = some member
        ∧ ∀ o' < o, keyOf o' = keyOf o → w'.group.cursor.isAcked o' = true
    | .other => True := by
  intro h
  cases h with
  | join member => rfl
  | leave member => rfl
  | poll env member durable hstored hreset =>
    have hmsg := (hinv.polled home cfg env member durable hstored hreset).2
    generalize (w.group.pollInStream home cfg env (some member) w.budget).1 = answer at hmsg ⊢
    rcases answer with (d | _) | _ | _
    case ok.message => exact hmsg d rfl
    all_goals trivial
  | _ => trivial

end Polls

/-- A group is put in key-shared mode before anything of it was claimed. -/
theorem Inv.start (budget : RetryBudget) (hwf : g.cursor.Wf) (hrouter : g.router = none)
    (hleases : ∀ o, g.leases.leases.get o = none) (hstash : g.pendingMatch = none) :
    Inv keyOf (World.start g budget) new := by
  refine ⟨⟨hwf, hstash, rfl, ?_, nofun, nofun, fun o lease hget => ?_⟩, nofun⟩
  · simp only [World.start, setKeyOrdering, hrouter, Option.getD_none]
  · exact absurd hget (by simp [World.start, setKeyOrdering, hleases o])

/-- The owner of a key among the members of a group. -/
def ownerIn [Checksums] (g : WorkGroup) (key : Bytes) : Option MemberId :=
  g.router.bind (·.owner key)

/-- In every run of a key-shared group, at most one record of a key is out at a time; a record goes
to the owner of its key, when nothing of the key is left below it; and a member that joins or leaves
moves only keys to or from itself. -/
theorem one_in_flight_in_order [Checksums] (home : Home) (cfg : EngineConfig)
    (keyOf : Nat → Bytes) (g : WorkGroup) (budget : RetryBudget) (hwf : g.cursor.Wf)
    (hrouter : g.router = none) (hleases : ∀ o, g.leases.leases.get o = none)
    (hstash : g.pendingMatch = none) {w : World}
    (hreach : Reach home cfg keyOf (World.start g budget) w) :
    (∀ o o', w.delivered o = true → w.group.cursor.isAcked o = false →
      w.delivered o' = true → w.group.cursor.isAcked o' = false →
        keyOf o = keyOf o' → keyOf o ≠ [] → o = o')
      ∧ ∀ e w', Step home cfg keyOf w e w' →
        (∀ member o, e = .delivered member o → keyOf o ≠ [] →
          ownerIn w.group (keyOf o) = some member
            ∧ ∀ o' < o, keyOf o' = keyOf o → w'.group.cursor.isAcked o' = true)
        ∧ (∀ member, e = .joined member → ∀ key, ownerIn w'.group key ≠ ownerIn w.group key →
          ownerIn w'.group key = some member)
        ∧ ∀ member, e = .left member → ∀ key, ownerIn w'.group key ≠ ownerIn w.group key →
          ownerIn w.group key = some member := by
  obtain ⟨router, hinv⟩ := hreach.inv ⟨_, Inv.start budget hwf hrouter hleases hstash⟩
  have howner (key : Bytes) : ownerIn w.group key = router.owner key := by
    simp only [ownerIn, hinv.shared, Option.bind_some]
  refine ⟨fun o o' hd hacked hd' hacked' heq hkey => ?_, fun e w' hstep => ⟨?_, ?_, ?_⟩⟩
  · -- the higher one would have found the lower one acknowledged
    rcases Nat.lt_trichotomy o o' with hlt | heq' | hlt
    · have := hinv.order o' hd' hacked' (heq ▸ hkey) o hlt heq
      rw [hacked] at this
      cases this
    · exact heq'
    · have := hinv.order o hd hacked hkey o' hlt heq.symm
      rw [hacked'] at this
      cases this
  · rintro member o rfl hkey
    obtain ⟨hown, hlower⟩ := hinv.event hstep hkey
    exact ⟨(howner _).trans hown, hlower⟩
  · rintro member rfl key hne
    have hown : ownerIn w'.group key = (router.join member).2.owner key := by
      rw [show w'.group = _ from hinv.event hstep]
      simp only [ownerIn, joinMember, hinv.shared, Option.map_some, Option.bind_some]
    rw [hown, howner] at hne
    exact hown.trans (owner_join hne)
  · rintro member rfl key hne
    have hown : ownerIn w'.group key = (router.leave member).2.owner key := by
      rw [show w'.group = _ from hinv.event hstep]
      simp only [ownerIn, leaveMember, hinv.shared, Option.map_some, Option.bind_some]
    rw [hown, howner] at hne
    exact (howner _).trans (owner_leave hne)

end Runs

/-! ## Three records, two of one key -/

section ThreeRecords

local instance : Checksums := ⟨castagnoli, fun _ => 0⟩

/-- No delivery limit, a lease of ten nanoseconds. -/
def leaseOfTen : EngineConfig := .leaseOfTen 0 0

/-- The key of the first record is its own, the others share one. -/
def threeKeys (o : Nat) : Bytes := if o = 0 then [1] else [2]

/-- A log with three records, of which the first ones may be reaped. -/
def threeRecordsEnv (earliest now : Nat) : PollEnv :=
  ⟨earliest, 3, fun o =>
    .ok (if o < 3 then some ⟨o, 0, 0, 0, threeKeys o, [], [7], [], []⟩ else none),
    now, 0⟩

/-- The group before its first delivery, with one member. -/
def oneMember : World :=
  let w := World.start (.new leaseOfTen.lease 0) ⟨0, 0, 0, 0, 0, none⟩
  { w with group := w.group.joinMember 5 }

def World.pollAt (earliest now : Nat) (w : World) : World :=
  w.polled .default true (w.group.pollInStream .default leaseOfTen (threeRecordsEnv earliest now)
    (some 5) w.budget)

def World.ackAt (token : LeaseToken) (now : Nat) (w : World) : World :=
  { w with group := (w.group.ackIn leaseOfTen now token).2 }

theorem stored_threeRecordsEnv (now : Nat) : Stored threeKeys (threeRecordsEnv 0 now) := by
  refine ⟨fun o r h => ?_, Nat.zero_le _, show 3 ≤ u64Max by decide⟩
  have hread := h.read
  simp only [threeRecordsEnv, Except.ok.injEq] at hread
  split at hread
  · cases hread
    rfl
  · cases hread

theorem forgetsNothing_threeRecordsEnv (now : Nat) (c : AckCursor) :
    ForgetsNothing (threeRecordsEnv 0 now) c := fun h => absurd h (Nat.not_lt_zero _)

/-- The first two records are out, and the second one is acknowledged. -/
def secondAcked : World := ((oneMember.pollAt 0 0).pollAt 0 0).ackAt ⟨1, 1⟩ 1

/-- The third record goes to the only member, once the second one of its key is acknowledged. -/
theorem one_in_flight_in_order_second_of_key :
    threeKeys 1 = threeKeys 2 ∧ (secondAcked.pollAt 0 1).delivered 1 = true
      ∧ (secondAcked.pollAt 0 1).delivered 2 = true
      ∧ ownerIn secondAcked.group (threeKeys 2) = some 5
      ∧ ∀ o' < 2, threeKeys o' = threeKeys 2 →
        (secondAcked.pollAt 0 1).group.cursor.isAcked o' = true := by
  refine ⟨rfl, by decide +kernel, by decide +kernel, ?_⟩
  have hpolled (w : World) (now : Nat) : Step .default leaseOfTen threeKeys w
      (.ofPoll 5 (w.group.pollInStream .default leaseOfTen (threeRecordsEnv 0 now) (some 5)
        w.budget).1) (w.pollAt 0 now) :=
    .poll (threeRecordsEnv 0 now) 5 true (stored_threeRecordsEnv now)
      (forgetsNothing_threeRecordsEnv now _)
  have hreach : Reach .default leaseOfTen threeKeys
      (World.start (.new leaseOfTen.lease 0) ⟨0, 0, 0, 0, 0, none⟩) secondAcked :=
    (((Relation.ReflTransGen.single ⟨_, .join 5⟩).tail ⟨_, hpolled oneMember 0⟩).tail
      ⟨_, hpolled (oneMember.pollAt 0 0) 0⟩).tail ⟨_, .ack 1 ⟨1, 1⟩⟩
  have hanswer : (secondAcked.group.pollInStream .default leaseOfTen (threeRecordsEnv 0 1) (some 5)
      secondAcked.budget).1
        = .ok (.message ⟨2, ⟨2, 2⟩, 1, ⟨2, 0, 0, 0, [2], [], [7], [], []⟩⟩) := by
    decide +kernel
  have hstep := hpolled secondAcked 1
  rw [hanswer] at hstep
  exact ((one_in_flight_in_order .default leaseOfTen threeKeys (.new leaseOfTen.lease 0)
    ⟨0, 0, 0, 0, 0, none⟩ (AckCursor.resume_wf (Nat.zero_le _)) rfl (fun _ => rfl) rfl
    hreach).2 _ _ hstep).1 5 2 rfl (by decide)

/-- The three records are delivered in turn and the second is acknowledged; then the first is
reaped, and the group starts over at the second, whose acknowledgement it forgets. The next poll
delivers the third record while the second one of the same key is not acknowledged. -/
theorem reset_reorders_key :
    let before := ((oneMember.pollAt 0 0).pollAt 0 0 |>.ackAt ⟨1, 1⟩ 1).pollAt 0 1
    let w := before.pollAt 1 2
    threeKeys 1 = threeKeys 2
      ∧ (w.group.pollInStream .default leaseOfTen (threeRecordsEnv 1 2) (some 5) w.budget).1
          = .ok (.message ⟨2, ⟨2, 0⟩, 1, ⟨2, 0, 0, 0, [2], [], [7], [], []⟩⟩)
      ∧ (w.pollAt 1 2).group.cursor.isAcked 1 = false := by
  decide +kernel

end ThreeRecords

end KeyShared

end IronBus
