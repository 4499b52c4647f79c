import IronBus.Native.Placement

/-!
# What the placement policy guarantees

The spread keeps one invariant through its walks: in round `k` no domain holds more than `k + 1`
replicas, and a domain that still has a node to give holds at least `k`.

Key results:
- `pass_spec`, `spreadReplicas_spec`: one walk, and the whole spread
- `placement_spec`: the leaders of a batch are balanced too, because each placement raises a least
  loaded node of the same set
-/

namespace IronBus

open List PlacementPolicy.PlacementNode

namespace PlacementPolicy

/-! ## Spreading -/

/-- The walks so far have taken the nodes `cs`. -/
structure Spread (nodes : List PlacementNode) (r k : Nat) (s : SpreadState)
    (cs : List PlacementNode) : Prop where
  chosen : s.chosen = cs.map PlacementNode.node
  mem : ∀ n ∈ cs, n ∈ nodes
  nodup : (cs.map PlacementNode.node).Nodup
  used : ∀ d, s.usedInDomain d = cs.countP (domainKey · = d)
  length_le : cs.length ≤ r
  upper : ∀ d, cs.countP (domainKey · = d) ≤ k + 1
  lower : ∀ n ∈ nodes, n.node ∉ cs.map PlacementNode.node →
    k ≤ cs.countP (domainKey · = domainKey n)

variable {nodes : List PlacementNode} {r k : Nat} {s : SpreadState} {cs : List PlacementNode}

theorem Spread.take (h : Spread nodes r k s cs) {n : PlacementNode} (hn : n ∈ nodes)
    (hnew : n.node ∉ s.chosen) (hlt : s.chosen.length < r)
    (hround : s.usedInDomain (domainKey n) = k) : Spread nodes r k (s.take n) (cs ++ [n]) := by
  have hcount (d : DomainKey) : (cs ++ [n]).countP (domainKey · = d)
      = cs.countP (domainKey · = d) + if domainKey n = d then 1 else 0 := by
    simp [countP_append, countP_cons]
  have hk : cs.countP (domainKey · = domainKey n) = k := by rw [← h.used, hround]
  rw [h.chosen] at hnew hlt
  refine ⟨by simp [SpreadState.take, h.chosen], ?_, ?_, fun d => ?_, ?_, fun d => ?_,
    fun m hm hnot => ?_⟩
  · simpa [or_imp, forall_and] using ⟨h.mem, hn⟩
  · rw [map_append, nodup_append]
    refine ⟨h.nodup, nodup_singleton _, fun a ha b hb => ?_⟩
    rw [mem_singleton.mp hb]
    exact fun heq => hnew (heq ▸ ha)
  · rw [hcount, SpreadState.take]
    simp only [h.used, eq_comm (a := d)]
    split <;> rfl
  · simpa using hlt
  · rw [hcount]
    have := h.upper d
    split_ifs with hd
    · subst hd
      omega
    · omega
  · rw [hcount]
    have hold := h.lower m hm fun hmem => hnot (map_append ▸ mem_append_left _ hmem)
    omega

/-- One walk takes nodes in order. If it does not stop at `r`, every node is taken or its domain is
past this round. -/
theorem pass_spec (h : Spread nodes r k s cs) {l : List PlacementNode} (hl : ∀ n ∈ l, n ∈ nodes) :
    ∃ cs', Spread nodes r k (pass r k l s) cs' ∧ cs <+: cs'
      ∧ ((pass r k l s).progressed = true ↔ s.progressed = true ∨ cs.length < cs'.length)
      ∧ (cs'.length < r → ∀ n ∈ l, n.node ∈ cs'.map node
        ∨ k < cs'.countP (domainKey · = domainKey n)) := by
  induction l generalizing s cs with
  | nil => exact ⟨cs, h, prefix_refl _, by simp [pass], fun _ => nofun⟩
  | cons n rest ih =>
    have hrest : ∀ m ∈ rest, m ∈ nodes := fun m hm => hl m (mem_cons_of_mem _ hm)
    have hlen : s.chosen.length = cs.length := by rw [h.chosen, length_map]
    unfold pass
    split
    · exact ⟨cs, h, prefix_refl _, by simp, fun hlt => by omega⟩
    rename_i hroom
    split
    · rename_i hmem
      obtain ⟨cs', hspread, hfront, hprog, hdone⟩ := ih h hrest
      refine ⟨cs', hspread, hfront, hprog, fun hlt => forall_mem_cons.mpr ⟨.inl ?_, hdone hlt⟩⟩
      rw [h.chosen] at hmem
      exact (hfront.map _).subset hmem
    rename_i hnew
    split_ifs with hround
    · obtain ⟨cs', hspread, hfront, hprog, hdone⟩ :=
        ih (h.take (hl n mem_cons_self) hnew (by omega) hround) hrest
      have hgrow := hfront.length_le
      rw [length_append, length_singleton] at hgrow
      refine ⟨cs', hspread, (prefix_append _ _).trans hfront, ?_, fun hlt =>
        forall_mem_cons.mpr ⟨.inl ?_, hdone hlt⟩⟩
      · exact iff_of_true (hprog.mpr (.inl rfl)) (.inr (by omega))
      · exact (hfront.map _).subset (by simp)
    · obtain ⟨cs', hspread, hfront, hprog, hdone⟩ := ih h hrest
      refine ⟨cs', hspread, hfront, hprog, fun hlt => forall_mem_cons.mpr ⟨.inr ?_, hdone hlt⟩⟩
      have hge := h.lower n (hl n mem_cons_self) (h.chosen ▸ hnew)
      rw [h.used] at hround
      have hmono := hfront.sublist.countP_le (p := (domainKey · = domainKey n))
      omega

/-- While nodes are left, one of them is not taken. -/
theorem exists_left (hnodes : (nodes.map PlacementNode.node).Nodup)
    (hlt : cs.length < nodes.length) : ∃ n ∈ nodes, n.node ∉ cs.map node := by
  by_contra hall
  push Not at hall
  have hsub : nodes.map node ⊆ cs.map node := fun x hx => by
    obtain ⟨n, hn, rfl⟩ := mem_map.mp hx
    exact hall n hn
  have := (subperm_of_subset hnodes hsub).length_le
  simp only [length_map] at this
  omega

theorem Spread.length_le_nodes (h : Spread nodes r k s cs) : cs.length ≤ nodes.length := by
  have hsub : cs.map node ⊆ nodes.map node := fun x hx => by
    obtain ⟨n, hn, rfl⟩ := mem_map.mp hx
    exact mem_map_of_mem (h.mem n hn)
  simpa using (subperm_of_subset h.nodup hsub).length_le

/-- With enough fuel the walks end with as many replicas as asked for or as there are nodes. -/
theorem spreadLoop_spec (h : Spread nodes r k s cs)
    (hnodes : (nodes.map node).Nodup) {fuel : Nat} (hk : k ≤ nodes.length)
    (hfuel : 2 * nodes.length + 1 ≤ fuel + cs.length + k) :
    ∃ k' s' cs', Spread nodes r k' s' cs' ∧ spreadLoop nodes r fuel k s = cs'.map node
      ∧ cs'.length = min r nodes.length := by
  induction fuel generalizing k s cs with
  | zero =>
    have := h.length_le_nodes
    omega
  | succ fuel ih =>
    have hlen : s.chosen.length = cs.length := by rw [h.chosen, length_map]
    unfold spreadLoop
    split_ifs with hcond
    · rw [hlen] at hcond
      have hstart : Spread nodes r k { s with progressed := false } cs := { h with }
      obtain ⟨cs', hspread, hfront, hprog, hdone⟩ := pass_spec hstart fun n hn => hn
      have hgrow := hfront.length_le
      dsimp only
      generalize pass r k nodes { s with progressed := false } = s' at *
      cases hp : s'.progressed with
      | true =>
        have hmore : cs.length < cs'.length := (hprog.mp hp).resolve_left (by simp)
        rw [if_pos rfl, if_neg (by omega)]
        exact ih hspread hk (by omega)
      | false =>
        have hsame : ¬ cs.length < cs'.length := fun hlt => by simp [hprog.mpr (.inr hlt)] at hp
        obtain ⟨n, hn, hleft⟩ := exists_left hnodes (show cs'.length < nodes.length by omega)
        have hpast := (hdone (by omega) n hn).resolve_left hleft
        have hcount := countP_le_length (p := (domainKey · = domainKey n)) (l := cs')
        have hnext : Spread nodes r (k + 1) s' cs' :=
          { hspread with
            upper := fun d => (hspread.upper d).trans (Nat.le_succ _)
            lower := fun m hm hnot => (hdone (by omega) m hm).resolve_left hnot }
        rw [if_neg (show ¬ false = true by simp), if_neg (by omega)]
        exact ih hnext (by omega) (by omega)
    · have := h.length_le
      have := h.length_le_nodes
      exact ⟨k, s, cs, h, h.chosen, by omega⟩

/-! ## The candidates -/

variable {candidates : List PlacementNode}

theorem eq_of_node_eq (hd : (candidates.map PlacementNode.node).Nodup) {a b : PlacementNode}
    (ha : a ∈ candidates) (hb : b ∈ candidates) (h : a.node = b.node) : a = b :=
  inj_on_of_nodup_map hd ha hb h

theorem uniqueNodes_of_nodup {seen : List Nat} (hseen : ∀ c ∈ candidates, c.node ∉ seen)
    (hd : (candidates.map node).Nodup) :
    uniqueNodes seen candidates = candidates := by
  induction candidates generalizing seen with
  | nil => rfl
  | cons c rest ih =>
    rw [map_cons, nodup_cons] at hd
    rw [uniqueNodes, if_neg (hseen c mem_cons_self), ih (fun c' hc' => ?_) hd.2]
    rw [mem_cons, not_or]
    refine ⟨fun heq => hd.1 (heq ▸ mem_map_of_mem hc'), ?_⟩
    exact hseen c' (mem_cons_of_mem _ hc')

/-- The order of the nodes: by whether they are labeled, by domain, by id. -/
theorem nodeLe_iff (a b : PlacementNode) : nodeLe a b = true ↔
    a.failureDomain.isNone.toNat < b.failureDomain.isNone.toNat
      ∨ a.failureDomain.isNone.toNat = b.failureDomain.isNone.toNat
        ∧ (a.failureDomain.getD 0 < b.failureDomain.getD 0
          ∨ a.failureDomain.getD 0 = b.failureDomain.getD 0 ∧ a.node ≤ b.node) := by
  unfold nodeLe
  cases a.failureDomain <;> cases b.failureDomain <;> simp

instance : Std.Total fun a b : PlacementNode => nodeLe a b = true where
  total a b := by
    rw [nodeLe_iff, nodeLe_iff]
    omega

instance : IsTrans PlacementNode fun a b => nodeLe a b = true where
  trans a b c := by
    rw [nodeLe_iff, nodeLe_iff, nodeLe_iff]
    omega

theorem node_eq_of_nodeLe {a b : PlacementNode} (hab : nodeLe a b = true)
    (hba : nodeLe b a = true) : a.node = b.node := by
  rw [nodeLe_iff] at hab hba
  omega

/-- The spread reads its candidates as a set. -/
theorem spreadReplicas_perm {candidates' : List PlacementNode} (hp : candidates.Perm candidates')
    (hd : (candidates.map node).Nodup) (r : Nat) :
    spreadReplicas candidates' r = spreadReplicas candidates r := by
  have hd' : (candidates'.map node).Nodup := (hp.map _).nodup_iff.mp hd
  have hsort : candidates'.insertionSort (nodeLe · ·) = candidates.insertionSort (nodeLe · ·) := by
    refine List.Perm.eq_of_pairwise (fun a b ha hb hab hba => ?_)
      (pairwise_insertionSort _ _) (pairwise_insertionSort _ _)
      ((perm_insertionSort _ _).trans (hp.symm.trans (perm_insertionSort _ _).symm))
    rw [mem_insertionSort] at ha hb
    exact eq_of_node_eq hd (hp.mem_iff.mpr ha) hb (node_eq_of_nodeLe hab hba)
  rw [spreadReplicas, spreadReplicas, uniqueNodes_of_nodup (by simp) hd,
    uniqueNodes_of_nodup (by simp) hd', hsort]

theorem spreadReplicas_spec (hd : (candidates.map PlacementNode.node).Nodup) (r : Nat) :
    ∃ k cs s, Spread candidates r k s cs
      ∧ spreadReplicas candidates r = cs.map node
      ∧ cs.length = min r candidates.length := by
  have hperm := perm_insertionSort (nodeLe · ·) candidates
  have hsorted : ((candidates.insertionSort (nodeLe · ·)).map node).Nodup :=
    (hperm.map _).nodup_iff.mpr hd
  have hstart : Spread (candidates.insertionSort (nodeLe · ·)) r 0 ⟨[], fun _ => 0, false⟩ [] :=
    ⟨rfl, nofun, nodup_nil, fun _ => rfl, Nat.zero_le _, fun _ => Nat.zero_le _,
      fun _ _ _ => Nat.zero_le _⟩
  obtain ⟨k, s, cs, h, heq, hlen⟩ :=
    spreadLoop_spec hstart hsorted (Nat.zero_le _) (Nat.le_refl (2 * _ + 1))
  rw [length_insertionSort] at hlen
  refine ⟨k, cs, s, { h with
    mem := fun n hn => (mem_insertionSort _).mp (h.mem n hn)
    lower := fun n hn => h.lower n ((mem_insertionSort _).mpr hn) }, ?_, hlen⟩
  rw [spreadReplicas, uniqueNodes_of_nodup (by simp) hd]
  exact heq

/-! ## The leader -/

theorem byId_eq_some_iff (hd : (candidates.map PlacementNode.node).Nodup) {x : Nat}
    {c : PlacementNode} : byId candidates x = some c ↔ c ∈ candidates ∧ c.node = x := by
  constructor
  · intro h
    exact ⟨mem_reverse.mp (mem_of_find?_eq_some h), by simpa using find?_some h⟩
  · rintro ⟨hc, rfl⟩
    obtain ⟨c', h'⟩ : ∃ c', byId candidates c.node = some c' := Option.isSome_iff_exists.mp
      (find?_isSome.mpr ⟨c, mem_reverse.mpr hc, by simp⟩)
    have hmem := mem_reverse.mp (mem_of_find?_eq_some h')
    rw [h', eq_of_node_eq hd hmem hc (by simpa using find?_some h')]

theorem leastLoaded_eq_none_iff {load : LeaderLoad} {l : List Nat} :
    leastLoaded load l = none ↔ l = [] := by
  cases l <;> simp [leastLoaded]

theorem leastLoaded_spec {load : LeaderLoad} {l : List Nat} {x : Nat}
    (h : leastLoaded load l = some x) : x ∈ l ∧ ∀ y ∈ l, load x ≤ load y := by
  cases l with
  | nil => cases h
  | cons n rest =>
    obtain rfl := Option.some.inj h
    clear h
    -- the fold keeps a node that nothing seen so far beats
    induction rest generalizing n with
    | nil => simp
    | cons m rest ih =>
      rw [foldl_cons]
      have hstep : (if loadLt load m n then m else n) ∈ [n, m]
          ∧ load (if loadLt load m n then m else n) ≤ load n
          ∧ load (if loadLt load m n then m else n) ≤ load m := by
        by_cases hlt : loadLt load m n
        · rw [if_pos hlt]
          unfold loadLt at hlt
          exact ⟨by simp, by omega, le_rfl⟩
        · rw [if_neg hlt]
          unfold loadLt at hlt
          exact ⟨by simp, le_rfl, by omega⟩
      obtain ⟨hmem, hle⟩ := ih (if loadLt load m n then m else n)
      generalize (if loadLt load m n then m else n) = b at *
      obtain ⟨hb, hbn, hbm⟩ := hstep
      have hbest := hle b mem_cons_self
      refine ⟨?_, ?_⟩
      · rcases mem_cons.mp hmem with heq | hin
        · rw [heq]
          rcases mem_cons.mp hb with rfl | hb
          · exact mem_cons_self
          · rw [mem_singleton.mp hb]
            exact mem_cons_of_mem _ mem_cons_self
        · exact mem_cons_of_mem _ (mem_cons_of_mem _ hin)
      · intro y hy
        rcases mem_cons.mp hy with rfl | hy
        · omega
        rcases mem_cons.mp hy with rfl | hy
        · omega
        · exact hle y (mem_cons_of_mem _ hy)

theorem orderLeaderFirst_perm {replicas : List Nat} (h : replicas.Nodup) (leader : Option Nat) :
    (orderLeaderFirst replicas leader).Perm replicas := by
  unfold orderLeaderFirst
  cases leader with
  | none => exact perm_insertionSort _ _
  | some l =>
    dsimp only
    split_ifs with hmem
    · refine ((perm_insertionSort _ _).cons l).trans ?_
      have := (perm_cons_erase hmem).symm
      rwa [h.erase_eq_filter] at this
    · exact perm_insertionSort _ _

/-! ## A batch -/

/-- The chosen nodes that may lead. -/
def eligibleReplicas (candidates : List PlacementNode) (r committedHw : Nat) : List Nat :=
  (spreadReplicas candidates r).filter fun node =>
    (byId candidates node).any (·.isEligible committedHw)

/-- How many partitions of a batch a node leads. -/
def led (x : Nat) (l : List (Nat × Placement)) : Nat := l.countP fun e => e.2.leader = some x

/-- A tally within one of balance stays so, whatever is placed. -/
theorem led_le (candidates : List PlacementNode) (R hw : Nat) (ids : List Nat) (load : LeaderLoad)
    (hload : ∀ x ∈ eligibleReplicas candidates (max R 1) hw,
      ∀ y ∈ eligibleReplicas candidates (max R 1) hw, load x ≤ load y + 1) {x y : Nat}
    (hx : x ∈ eligibleReplicas candidates (max R 1) hw)
    (hy : y ∈ eligibleReplicas candidates (max R 1) hw) :
    load x + led x (placeInOrder candidates R hw load ids)
      ≤ load y + led y (placeInOrder candidates R hw load ids) + 1 := by
  induction ids generalizing load with
  | nil => simpa [placeInOrder, led] using hload x hx y hy
  | cons p ids ih =>
    have hleader : (placePartition candidates R hw load).leader
        = leastLoaded load (eligibleReplicas candidates (max R 1) hw) := rfl
    cases hm : leastLoaded load (eligibleReplicas candidates (max R 1) hw) with
    | none => exact absurd hx (by simp [leastLoaded_eq_none_iff.mp hm])
    | some m =>
      obtain ⟨-, hleast⟩ := leastLoaded_spec hm
      have hbump (z : Nat) : bump load (some m) z = load z + if m = z then 1 else 0 := by
        by_cases hz : m = z
        · subst hz
          simp [bump]
        · simp [bump, hz, Ne.symm hz]
      have hstep := ih (bump load (some m)) fun a ha b hb => by
        have hold := hload a ha b hb
        have hraise : m ≠ a ∨ load a ≤ load b := or_iff_not_imp_left.mpr fun hma =>
          not_not.mp hma ▸ hleast b hb
        rw [hbump, hbump]
        split <;> split <;> omega
      simp only [placeInOrder, led, countP_cons, hleader, hm, Option.some.injEq,
        decide_eq_true_eq] at hstep ⊢
      rw [hbump, hbump] at hstep
      omega

/-! ## The policy -/

/-- How many of the chosen replicas lie in a domain. -/
def heldIn (candidates : List PlacementNode) (replicas : List Nat) (d : DomainKey) : Nat :=
  candidates.countP fun c => domainKey c = d && decide (c.node ∈ replicas)

/-- The entry of a node may lead. -/
def MayLead (candidates : List PlacementNode) (hw x : Nat) : Prop :=
  ∃ c ∈ candidates, c.node = x ∧ c.inIsr = true ∧ hw ≤ c.durablePrefix ∧ c.divergent = false

theorem mem_eligibleReplicas (hd : (candidates.map PlacementNode.node).Nodup) {r hw x : Nat} :
    x ∈ eligibleReplicas candidates r hw
      ↔ x ∈ spreadReplicas candidates r ∧ MayLead candidates hw x := by
  rw [eligibleReplicas, mem_filter, Option.any_eq_true]
  refine and_congr_right fun _ => ?_
  constructor
  · rintro ⟨c, hc, helig⟩
    obtain ⟨hmem, hnode⟩ := (byId_eq_some_iff hd).mp hc
    simp only [isEligible, Bool.and_eq_true, decide_eq_true_eq,
      Bool.not_eq_true'] at helig
    exact ⟨c, hmem, hnode, helig.1.1, helig.1.2, helig.2⟩
  · rintro ⟨c, hmem, hnode, hisr, hprefix, hdiv⟩
    refine ⟨c, (byId_eq_some_iff hd).mpr ⟨hmem, hnode⟩, ?_⟩
    simp [isEligible, hisr, hprefix, hdiv]

theorem heldIn_eq (hd : (candidates.map PlacementNode.node).Nodup)
    (h : Spread candidates r k s cs) {replicas : List Nat}
    (hrep : ∀ x, x ∈ replicas ↔ x ∈ cs.map node) (d : DomainKey) :
    heldIn candidates replicas d = cs.countP (domainKey · = d) := by
  have hperm : cs.Perm (candidates.filter fun c => decide (c.node ∈ replicas)) := by
    refine (perm_ext_iff_of_nodup h.nodup.of_map (hd.of_map.filter _)).mpr fun c => ?_
    rw [mem_filter, decide_eq_true_eq, hrep]
    constructor
    · exact fun hc => ⟨h.mem c hc, mem_map_of_mem hc⟩
    · rintro ⟨hc, hmem⟩
      obtain ⟨c', hc', heq⟩ := mem_map.mp hmem
      rwa [← eq_of_node_eq hd (h.mem c' hc') hc heq]
  rw [heldIn, hperm.countP_eq, countP_filter]

/-- The placement of a partition over distinct candidates, and the leaders of a batch. -/
theorem placement_spec (candidates : List PlacementNode)
    (hd : (candidates.map PlacementNode.node).Nodup) (R hw : Nat) (load : LeaderLoad) :
    (placePartition candidates R hw load).replicas.Nodup
      ∧ (placePartition candidates R hw load).replicas.length = min (max R 1) candidates.length
      ∧ (∀ x ∈ (placePartition candidates R hw load).replicas, ∃ c ∈ candidates, c.node = x)
      ∧ (∀ d, ∀ c ∈ candidates, c.node ∉ (placePartition candidates R hw load).replicas →
        heldIn candidates (placePartition candidates R hw load).replicas d
          ≤ heldIn candidates (placePartition candidates R hw load).replicas (domainKey c) + 1)
      ∧ (∀ x, (placePartition candidates R hw load).leader = some x →
        x ∈ (placePartition candidates R hw load).replicas ∧ MayLead candidates hw x
          ∧ ∀ y ∈ (placePartition candidates R hw load).replicas, MayLead candidates hw y →
            load x ≤ load y)
      ∧ ((placePartition candidates R hw load).leader = none →
        ∀ y ∈ (placePartition candidates R hw load).replicas, ¬ MayLead candidates hw y)
      ∧ (∀ candidates', candidates.Perm candidates' →
        placePartition candidates' R hw load = placePartition candidates R hw load)
      ∧ ∀ partitions : List Nat, ∀ x ∈ (placePartition candidates R hw load).replicas,
        MayLead candidates hw x → ∀ y ∈ (placePartition candidates R hw load).replicas,
        MayLead candidates hw y →
        led x (placePartitions partitions candidates R hw)
          ≤ led y (placePartitions partitions candidates R hw) + 1 := by
  obtain ⟨k, cs, s, hspread, hchosen, hlen⟩ := spreadReplicas_spec hd (max R 1)
  have hnodup : (spreadReplicas candidates (max R 1)).Nodup := hchosen ▸ hspread.nodup
  have hperm : (placePartition candidates R hw load).replicas.Perm
      (spreadReplicas candidates (max R 1)) := orderLeaderFirst_perm hnodup _
  have hleader : (placePartition candidates R hw load).leader
      = leastLoaded load (eligibleReplicas candidates (max R 1) hw) := rfl
  have hrep (x : Nat) : x ∈ (placePartition candidates R hw load).replicas
      ↔ x ∈ cs.map node := by rw [hperm.mem_iff, hchosen]
  have helig (x : Nat) : x ∈ eligibleReplicas candidates (max R 1) hw
      ↔ x ∈ (placePartition candidates R hw load).replicas ∧ MayLead candidates hw x := by
    rw [mem_eligibleReplicas hd, hperm.mem_iff]
  refine ⟨hperm.nodup_iff.mpr hnodup, ?_, fun x hx => ?_, fun d c hc hnot => ?_, fun x hx => ?_,
    fun hnone y hy hlead => ?_, fun candidates' hp => ?_, fun partitions x hx hxl y hy hyl => ?_⟩
  · rw [hperm.length_eq, hchosen, List.length_map, hlen]
  · obtain ⟨c, hc, rfl⟩ := List.mem_map.mp ((hrep x).mp hx)
    exact ⟨c, hspread.mem c hc, rfl⟩
  · -- both domains are within one of the round the spread has reached
    rw [heldIn_eq hd hspread hrep, heldIn_eq hd hspread hrep]
    have hupper := hspread.upper d
    have hlower := hspread.lower c hc fun hmem => hnot ((hrep _).mpr hmem)
    omega
  · obtain ⟨hmem, hleast⟩ := leastLoaded_spec (hleader ▸ hx)
    obtain ⟨hin, hlead⟩ := (helig x).mp hmem
    exact ⟨hin, hlead, fun y hy hyl => hleast y ((helig y).mpr ⟨hy, hyl⟩)⟩
  · have hnil := leastLoaded_eq_none_iff.mp (hleader ▸ hnone)
    have hmem := (helig y).mpr ⟨hy, hlead⟩
    rw [hnil] at hmem
    cases hmem
  · have hd' : (candidates'.map node).Nodup := (hp.map _).nodup_iff.mp hd
    have hby : byId candidates' = byId candidates := by
      funext x
      apply Option.ext
      intro c
      rw [byId_eq_some_iff hd, byId_eq_some_iff hd', hp.mem_iff]
    unfold placePartition chooseLeader
    dsimp only
    rw [spreadReplicas_perm hp hd, hby]
  · -- the walk over a batch is balanced from loads of zero
    have hbalance := led_le candidates R hw (partitions.insertionSort (· ≤ ·)).dedup (fun _ => 0)
      (fun _ _ _ _ => Nat.zero_le _) ((helig x).mpr ⟨hx, hxl⟩) ((helig y).mpr ⟨hy, hyl⟩)
    simpa [placePartitions] using hbalance

/-- Three nodes in two domains, of which two may lead. -/
def threeNodes : List PlacementNode :=
  [⟨3, some 1, true, 9, false⟩, ⟨1, some 1, true, 9, false⟩, ⟨2, some 2, true, 4, false⟩]

theorem placement_spec_three :
    (placePartition threeNodes 2 9 (fun _ => 0)).replicas.length = 2
      ∧ led 1 (placePartitions [7, 8, 9] threeNodes 3 9)
        ≤ led 3 (placePartitions [7, 8, 9] threeNodes 3 9) + 1 := by
  constructor
  · exact (placement_spec _ (by decide) 2 9 fun _ => 0).2.1
  · exact (placement_spec threeNodes (by decide) 3 9 fun _ => 0).2.2.2.2.2.2.2 [7, 8, 9] 1
      (by decide) ⟨⟨1, some 1, true, 9, false⟩, by decide⟩ 3 (by decide)
      ⟨⟨3, some 1, true, 9, false⟩, by decide⟩

/-- A replication factor of zero is taken as one. -/
theorem zero_replication_places_one :
    (placePartition [⟨1, none, true, 0, false⟩] 0 0 fun _ => 0).replicas = [1] := by
  decide

end PlacementPolicy

end IronBus
