/-
# What the slots hold

The switch side of the joint argument.  `Traffic` (`Lib/SlotWindow.lean`) keeps the number each
slot shows and the packets that have arrived; here are the registers that go with it.  A slot
that shows `P` has the version of packet `P`, the bitmap of the ranks it arrived from, and the
sums of what they contributed (`Shows`); a packet that waits for its second pass has the sums
of all ranks in its even words (`Waits`); and a response has them in all words, or nobody
waits for it any more (`Responds`).

`Held.arrive` is a first pass, `Waits.respond` a second.
-/
import NetCCL.Lib.SlotWindow
import NetCCL.System.Network

namespace NetCCL

open Lib Switch Backend

/-! ## 1. Addresses and versions -/

/-- The slot of packet `q`, and its version. -/
def Backend.Plan.addr (G : Plan) (q : ℕ) : BitVec 16 := (G.header 0 q).aggAddr

def Backend.Plan.version (G : Plan) (q : ℕ) : BitVec 32 := (G.header 0 q).version

theorem psn_mod {G : Plan} {d : ℕ} (hd : d ∣ 2 ^ 32) (q : ℕ) :
    (G.psn + BitVec.ofNat 32 q).toNat % d = (G.psn.toNat + q) % d := by
  rw [BitVec.toNat_add, BitVec.toNat_ofNat, Nat.add_mod_mod, Nat.mod_mod_of_dvd _ hd]

/-- **One slot for all packets with one remainder**, and another one for all others. -/
theorem addr_eq_iff {G : Plan} (hdvd : G.aggLen ∣ 2 ^ 32) (hwidth : G.aggLen < 2 ^ 16) {x y : ℕ} :
    G.addr x = G.addr y ↔ x % G.aggLen = y % G.aggLen := by
  have haddr : ∀ q, G.addr q =
      BitVec.ofNat 16 (G.aggAddr + (G.psn.toNat + q) % G.aggLen) := by
    intro q
    rw [← psn_mod hdvd q]
    rfl
  have hpos : 0 < G.aggLen := Nat.pos_of_dvd_of_pos hdvd (by decide)
  have hx := Nat.mod_lt (G.psn.toNat + x) hpos
  have hy := Nat.mod_lt (G.psn.toNat + y) hpos
  rw [haddr, haddr]
  constructor
  · intro h
    have hnat := congrArg BitVec.toNat h
    rw [BitVec.toNat_ofNat, BitVec.toNat_ofNat] at hnat
    have hmod : (G.psn.toNat + x) % G.aggLen = (G.psn.toNat + y) % G.aggLen := by omega
    exact Nat.ModEq.add_left_cancel' G.psn.toNat hmod
  · intro h
    rw [Nat.ModEq.add_left G.psn.toNat h]

/-- A slot's next packet has another version. -/
theorem version_next {G : Plan} (hpos : 0 < G.aggLen) (hwidth : G.aggLen < 2 ^ 16) (q : ℕ) :
    G.version q ≠ G.version (q + G.aggLen) := by
  intro h
  have hpsn := congrArg BitVec.toNat (version_eq_iff.mp h).2
  have hmod : ∀ x, ((G.header 0 x).psn.extractLsb' 0 24).toNat = (G.psn.toNat + x) % 2 ^ 24 := by
    intro x
    rw [BitVec.extractLsb'_toNat, Nat.shiftRight_zero, ← psn_mod (by decide)]
    rfl
  rw [hmod, hmod] at hpsn
  omega

/-! ## 2. What a slot shows -/

/-- What every rank contributes to every packet. -/
abbrev Pay (n : ℕ) := Fin n → ℕ → Payload

variable {n : ℕ} {G : Plan} {tbl : Tables} {pay pay' : Pay n} {regs : Regs} {f f' : Traffic (Fin n)}

/-- Words that are the sums over all ranks. -/
def Sums (pay : Pay n) (q : ℕ) (payload : Payload) : Prop :=
  ∀ w, (word payload w).toInt = ∑ i, (word (pay i q) w).toInt

/-- The words of packet `q` fit, summed over any of the ranks `t`. -/
def FitsAt (pay : Pay n) (t : Finset (Fin n)) (q : ℕ) : Prop :=
  ∀ w, SubsetFits t fun i => word (pay i q) w

theorem FitsAt.mono {t t' : Finset (Fin n)} {q : ℕ} (h : FitsAt pay t' q) (hsub : t ⊆ t') :
    FitsAt pay t q := fun w x hx => h w x (hx.trans hsub)

theorem FitsAt.congr {t : Finset (Fin n)} {q : ℕ} (h : FitsAt pay' t q)
    (hpay : ∀ i ∈ t, pay' i q = pay i q) : FitsAt pay t q := by
  intro w x hx
  have hsame : ∑ i ∈ x, (word (pay' i q) w).toInt = ∑ i ∈ x, (word (pay i q) w).toInt :=
    Finset.sum_congr rfl fun i hi => by rw [hpay i (hx hi)]
  exact hsame ▸ h w x hx

/-- The words of a payload, pair by pair. -/
theorem sums_of_pairs {q : ℕ} {payload : Payload}
    (heven : ∀ k, (payload k).agg0.toInt = ∑ i, (pay i q k).agg0.toInt)
    (hodd : ∀ k, (payload k).agg1.toInt = ∑ i, (pay i q k).agg1.toInt) : Sums pay q payload := by
  intro w
  unfold word
  dsimp only
  split
  · exact heven _
  · exact hodd _

open Classical in
/-- The ranks packet `q` has arrived from. -/
noncomputable def came (f : Traffic (Fin n)) (q : ℕ) : Finset (Fin n) :=
  Finset.univ.filter fun i => q ∈ f.arr i

theorem mem_came {q : ℕ} {i : Fin n} : i ∈ came f q ↔ q ∈ f.arr i := by
  classical
  simp [came]

theorem came_eq_univ {q : ℕ} : came f q = Finset.univ ↔ ∀ i, q ∈ f.arr i := by
  simp [Finset.eq_univ_iff_forall, mem_came]

/-- The slot of packet `P` shows it, from the ranks `t`; it has the sums, if they fit. -/
structure Shows (G : Plan) (pay : Pay n) (regs : Regs) (t : Finset (Fin n)) (P : ℕ) : Prop where
  version : (regs.regBitmap (G.addr P)).version = G.version P
  ranks : regs.ranks (G.addr P) = t.map Fin.valEmbedding
  words : FitsAt pay t P → ∀ k,
    (regs.aggregatorArray (G.addr P) k).agg0.toInt = ∑ i ∈ t, (pay i P k).agg0.toInt ∧
      (regs.aggregatorArray (G.addr P) k).agg1.toInt = ∑ i ∈ t, (pay i P k).agg1.toInt

/-- **The slots hold what has arrived.** -/
structure Held (G : Plan) (pay : Pay n) (regs : Regs) (f : Traffic (Fin n)) : Prop where
  clear : ∀ q, f.slot (q % G.aggLen) = none → (regs.regBitmap (G.addr q)).bitmap = 0#32
  shows : ∀ P, f.slot (P % G.aggLen) = some P → Shows G pay regs (came f P) P

/-- A packet of rank `i` between its passes. -/
structure Waits (G : Plan) (pay : Pay n) (f : Traffic (Fin n)) (q : ℕ) (i : Fin n) (p : Packet) :
    Prop where
  all : ∀ k, q ∈ f.arr k
  second : p.internal.passCnt = 2
  header : p.netccl = G.header i q
  even : FitsAt pay Finset.univ q → ∀ k,
    (p.payload k).agg0.toInt = ∑ i, (pay i q k).agg0.toInt

/-- The response a packet leaves the egress control as. -/
def respond (h : Netccl) (payload : Payload) : Response := egressRespond ⟨⟨2, false⟩, h, payload⟩ 0

/-- A response to rank `i`. -/
structure Responds (G : Plan) (pay : Pay n) (f : Traffic (Fin n)) (q : ℕ) (i : Fin n)
    (r : Response) : Prop where
  all : ∀ k, q ∈ f.arr k
  eq : ∃ payload, r = respond (G.header i q) payload ∧
    ((FitsAt pay Finset.univ q → Sums pay q payload) ∨ ∀ k, q < f.lo k)

/-- Contributions may change where nothing has arrived yet. -/
def Agree (f : Traffic (Fin n)) (pay pay' : Pay n) : Prop := ∀ i, ∀ q ∈ f.arr i, pay' i q = pay i q

theorem Sums.congr {q : ℕ} {payload : Payload} (h : Sums pay q payload) (hpay : Agree f pay pay')
    (hall : ∀ k, q ∈ f.arr k) : Sums pay' q payload := by
  intro w
  rw [h w]
  exact Finset.sum_congr rfl fun i _ => by rw [hpay i q (hall i)]

theorem Held.congr (h : Held G pay regs f) (hpay : Agree f pay pay') (harr : f'.arr = f.arr)
    (hslot : f'.slot = f.slot) : Held G pay' regs f' := by
  refine ⟨fun q hq => h.clear q (by rw [← hslot]; exact hq), fun P hP => ?_⟩
  have hshows := h.shows P (by rw [← hslot]; exact hP)
  have hcame : came f' P = came f P := by
    ext i
    rw [mem_came, mem_came, harr]
  rw [hcame]
  refine ⟨hshows.version, hshows.ranks, fun hfits k => ?_⟩
  obtain ⟨heven, hodd⟩ :=
    hshows.words (hfits.congr fun i hi => hpay i P (mem_came.mp hi)) k
  rw [heven, hodd]
  exact ⟨Finset.sum_congr rfl fun i hi => by rw [hpay i P (mem_came.mp hi)],
    Finset.sum_congr rfl fun i hi => by rw [hpay i P (mem_came.mp hi)]⟩

theorem Waits.congr {q : ℕ} {i : Fin n} {p : Packet} (h : Waits G pay f q i p)
    (hpay : Agree f pay pay') (harr : ∀ k, f.arr k ⊆ f'.arr k) : Waits G pay' f' q i p := by
  refine ⟨fun k => harr k (h.all k), h.second, h.header, fun hfits k => ?_⟩
  rw [h.even (hfits.congr fun i _ => hpay i q (h.all i))]
  exact Finset.sum_congr rfl fun i _ => by rw [hpay i q (h.all i)]

theorem Responds.congr {q : ℕ} {i : Fin n} {r : Response} (h : Responds G pay f q i r)
    (hpay : Agree f pay pay') (harr : ∀ k, f.arr k ⊆ f'.arr k) (hlo : ∀ k, f.lo k ≤ f'.lo k) :
    Responds G pay' f' q i r := by
  obtain ⟨payload, hr, hsums⟩ := h.eq
  refine ⟨fun k => harr k (h.all k), payload, hr, ?_⟩
  rcases hsums with hsums | hpast
  · exact Or.inl fun hfits =>
      (hsums (hfits.congr fun i _ => hpay i q (h.all i))).congr hpay h.all
  · exact Or.inr fun k => Nat.lt_of_lt_of_le (hpast k) (hlo k)

/-! ## 3. A first pass -/

theorem rank_toNat {i : Fin n} (hn : n ≤ 32) : (BitVec.ofNat 8 i.val).toNat = i := by
  have hi := i.isLt
  rw [BitVec.toNat_ofNat, Nat.mod_eq_of_lt (by omega)]

theorem map_insert (i : Fin n) (t : Finset (Fin n)) :
    (insert i t).map Fin.valEmbedding = insert i.val (t.map Fin.valEmbedding) :=
  Finset.map_insert _ _ _

/-- The packet of rank `i` with number `q`, as it comes from the parser. -/
structure Arriving (G : Plan) (pay : Pay n) (q : ℕ) (i : Fin n) (p : Packet) : Prop where
  first : p.First
  header : p.netccl = G.header i q
  payload : p.payload = pay i q

variable (tbl) in
/-- **One packet more in its slot.**  `found` are the ranks the first pass finds there. -/
theorem Arriving.shows {q : ℕ} {i : Fin n} {p : Packet} (h : Arriving G pay q i p) (hn : n ≤ 32)
    {found : Finset (Fin n)}
    (hfound : regs.ranksAt (G.addr q) (G.version q) = found.map Fin.valEmbedding)
    (hold : found.Nonempty → Shows G pay regs found q) :
    Shows G pay (ingress tbl regs p).1 (insert i found) q ∧
      ∀ k, ((ingress tbl regs p).2.1.payload k).agg0 =
        ((ingress tbl regs p).1.aggregatorArray (G.addr q) k).agg0 := by
  have haddr : p.netccl.aggAddr = G.addr q := by
    rw [h.header]
    rfl
  have hversion : p.netccl.version = G.version q := by
    rw [h.header]
    rfl
  have hrank : p.netccl.rank.toNat = i := by
    rw [h.header]
    exact rank_toNat hn
  have hrank32 : p.netccl.rank.toNat < 32 := by
    have hi := i.isLt
    rw [hrank]
    omega
  obtain ⟨hver, hranks⟩ := ingress_first_slot tbl regs h.first hrank32
  have hagg := ingress_first_agg tbl regs h.first hrank32
  rw [haddr] at hver hranks
  simp only [haddr, hversion, hrank, hfound, h.payload] at hver hranks hagg
  refine ⟨⟨hver, by rw [hranks, map_insert], fun hfits k => ?_⟩, fun k => by rw [(hagg k).2]⟩
  rw [(hagg k).1]
  rcases found.eq_empty_or_nonempty with rfl | hne
  · -- the slot is taken over
    rw [Finset.map_empty, if_pos rfl, insert_empty_eq, Finset.sum_singleton, Finset.sum_singleton]
    exact ⟨rfl, rfl⟩
  · obtain ⟨heven, hodd⟩ := (hold hne).words (hfits.mono (Finset.subset_insert _ _)) k
    rw [if_neg fun he => hne.ne_empty (Finset.map_eq_empty.mp he)]
    have hmem : i.val ∈ found.map Fin.valEmbedding ↔ i ∈ found :=
      Finset.mem_map' Fin.valEmbedding (a := i) (s := found)
    by_cases hi : i ∈ found
    · rw [if_pos (hmem.mpr hi), Finset.insert_eq_of_mem hi]
      exact ⟨heven, hodd⟩
    · rw [if_neg fun hi' => hi (hmem.mp hi')]
      have hwords : (∀ x, word (pay x q) ⟨2 * k, by omega⟩ = (pay x q k).agg0) ∧
          ∀ x, word (pay x q) ⟨2 * k + 1, by omega⟩ = (pay x q k).agg1 := by
        constructor
        · intro x
          simp [word]
        · intro x
          have hhalf : (2 * k.val + 1) / 2 = k := by omega
          simp [word, hhalf]
      have hfit₀ := hfits ⟨2 * k, by omega⟩
      have hfit₁ := hfits ⟨2 * k + 1, by omega⟩
      simp only [hwords.1] at hfit₀
      simp only [hwords.2] at hfit₁
      have hsub := Finset.subset_insert i found
      have hself := Finset.mem_insert_self i found
      exact ⟨satAdd_sum (by decide) hfit₀ hsub hself hi heven,
        satAdd_sum (by decide) hfit₁ hsub hself hi hodd⟩

/-- The ranks after one more arrival. -/
theorem came_arrive {i : Fin n} {q x : ℕ} {l : List ℕ} {slot : ℕ → Option ℕ} :
    came { f with
      chan := Function.update f.chan i l
      arr := Function.update f.arr i (insert q (f.arr i))
      slot := slot } x = if x = q then insert i (came f q) else came f x := by
  ext k
  rw [mem_came]
  dsimp only
  rw [Traffic.mem_update_insert]
  split
  · rename_i hx
    subst hx
    rw [Finset.mem_insert, mem_came]
    simp
  · rename_i hx
    rw [mem_came]
    simp [hx]

/-- The ranks a first pass finds are those its number has arrived from. -/
theorem Held.found (hdvd : G.aggLen ∣ 2 ^ 32) (hwidth : G.aggLen < 2 ^ 16) {W : ℕ}
    (hWL : 2 * W ≤ G.aggLen) (h : Held G pay regs f) (hinv : Traffic.Inv W G.aggLen f) {i : Fin n}
    {q : ℕ} {l : List ℕ} (hc : f.chan i = q :: l) :
    regs.ranksAt (G.addr q) (G.version q) = (came f q).map Fin.valEmbedding ∧
      ((came f q).Nonempty → Shows G pay regs (came f q) q) := by
  rcases hinv.fresh hWL hc with hslot | ⟨hnew, hslot⟩
  · have hshows := h.shows q hslot
    exact ⟨by rw [Regs.ranksAt, if_pos hshows.version, hshows.ranks], fun _ => hshows⟩
  · have hempty : came f q = ∅ :=
      Finset.eq_empty_of_forall_notMem fun k hk => hnew k (mem_came.mp hk)
    rw [hempty, Finset.map_empty]
    refine ⟨?_, fun hne => absurd rfl hne.ne_empty⟩
    rw [Regs.ranksAt]
    cases hold : f.slot (q % G.aggLen) with
    | none => rw [Regs.ranks, h.clear q hold, bits_zero, ite_self]
    | some P =>
      -- the slot still shows the packet one lap before
      have hnext := hslot P hold
      have hmod : P % G.aggLen = q % G.aggLen := by rw [hnext, Nat.add_mod_right]
      have hshows := h.shows P (by rw [hmod]; exact hold)
      have hpos : 0 < G.aggLen := Nat.pos_of_dvd_of_pos hdvd (by decide)
      have hver := hshows.version
      rw [(addr_eq_iff hdvd hwidth).mpr hmod] at hver
      rw [if_neg]
      rw [hver, hnext]
      exact version_next hpos hwidth P

/-- **A first pass** keeps the slots in agreement with what has arrived; a packet that is
recirculated has arrived from everybody, and carries the sums in its even words. -/
theorem Held.arrive (hG : Created G tbl n) {W : ℕ} (hWL : 2 * W ≤ G.aggLen)
    (h : Held G pay regs f) (hinv : Traffic.Inv W G.aggLen f) {i : Fin n} {q : ℕ} {l : List ℕ}
    {p : Packet} (hc : f.chan i = q :: l) (hp : Arriving G pay q i p)
    (hf' : f' = { f with
      chan := Function.update f.chan i l
      arr := Function.update f.arr i (insert q (f.arr i))
      slot := Function.update f.slot (q % G.aggLen) (some q) }) :
    Held G pay (ingress tbl regs p).1 f' ∧
      ∀ port, (ingress tbl regs p).2.2 = .recirculate port →
        Waits G pay f' q i (egressRecirculate (ingress tbl regs p).2.1) := by
  have hn := hG.registered.1
  obtain ⟨hfound, hold⟩ := h.found hG.dvd hG.width hWL hinv hc
  obtain ⟨hshows, hagg⟩ := hp.shows tbl hn hfound hold
  have haddr : p.netccl.aggAddr = G.addr q := by
    rw [hp.header]
    rfl
  have hcame : ∀ x, came f' x = if x = q then insert i (came f q) else came f x := by
    intro x
    rw [hf']
    exact came_arrive
  have hother : ∀ x, x % G.aggLen ≠ q % G.aggLen → G.addr x ≠ p.netccl.aggAddr := fun x hx he =>
    hx ((addr_eq_iff hG.dvd hG.width).mp (he.trans haddr))
  refine ⟨⟨fun x hx => ?_, fun P hP => ?_⟩, fun port hport => ?_⟩
  · rw [hf'] at hx
    dsimp only at hx
    have hne : x % G.aggLen ≠ q % G.aggLen := by
      intro he
      rw [he, Function.update_self] at hx
      cases hx
    rw [Function.update_of_ne hne] at hx
    rw [(ingress_frame tbl regs (hother x hne)).1]
    exact h.clear x hx
  · rw [hf'] at hP
    dsimp only at hP
    by_cases hmod : P % G.aggLen = q % G.aggLen
    · rw [hmod, Function.update_self] at hP
      obtain rfl := Option.some.inj hP
      rw [hcame, if_pos rfl]
      exact hshows
    · rw [Function.update_of_ne hmod] at hP
      have hne : P ≠ q := by
        intro he
        exact hmod (by rw [he])
      obtain ⟨hbit, harr⟩ := ingress_frame tbl regs (hother P hmod)
      have hkept := h.shows P hP
      rw [hcame, if_neg hne]
      refine ⟨by rw [hbit]; exact hkept.version, ?_, by rw [harr]; exact hkept.words⟩
      rw [Regs.ranks, hbit]
      exact hkept.ranks
  · have hgroup : p.netccl.groupId = G.groupId := by rw [hp.header]; rfl
    have hrank : p.netccl.rank.toNat = i := by
      rw [hp.header]
      exact rank_toNat hn
    have hversion : p.netccl.version = G.version q := by rw [hp.header]; rfl
    obtain ⟨hverdict, hinternal⟩ := ingress_first_verdict regs hp.first
      (by rw [hgroup]; exact hG.registered) (by rw [hrank]; exact i.isLt)
    rw [haddr, hversion, hrank, hfound, ← map_insert] at hverdict hinternal
    have hcomplete : (insert i (came f q)).map Fin.valEmbedding = Finset.range n := by
      by_contra hne
      rw [hverdict, if_neg hne] at hport
      cases hport
    have huniv : insert i (came f q) = Finset.univ := by
      refine Finset.eq_univ_of_forall fun k => ?_
      have hk : k.val ∈ (insert i (came f q)).map Fin.valEmbedding := by
        rw [hcomplete]
        exact Finset.mem_range.mpr k.isLt
      exact (Finset.mem_map' Fin.valEmbedding).mp hk
    have hall : came f' q = Finset.univ := by rw [hcame, if_pos rfl, huniv]
    refine ⟨came_eq_univ.mp hall, ?_, hp.header, fun hfits k => ?_⟩
    · rw [egressRecirculate, hinternal hcomplete]
      rfl
    · rw [← huniv] at hfits
      have hpayload : (egressRecirculate (ingress tbl regs p).2.1).payload =
        (ingress tbl regs p).2.1.payload := rfl
      rw [hpayload, hagg, (hshows.words hfits k).1, huniv]

/-! ## 4. A second pass -/

theorem respond_multicast {i j : Fin n} {q : ℕ} {x : Internal} (hmc : x.enableMulticast = true)
    (payload : Payload) : egressRespond ⟨x, G.header i q, payload⟩ (BitVec.ofNat 8 j) =
      respond (G.header j q) payload := by
  unfold egressRespond respond egressRespond
  rw [if_pos hmc]
  rfl

theorem respond_unicast {x : Internal} (hmc : x.enableMulticast = false) (h : Netccl)
    (payload : Payload) (rid : BitVec 8) :
    egressRespond ⟨x, h, payload⟩ rid = respond h payload := by
  unfold egressRespond respond egressRespond
  rw [if_neg (by rw [hmc]; decide)]
  rfl

variable (tbl) in
/-- **A second pass** changes no slot, and answers: to every rank or to the sender, with the
sums in all words, unless nobody waits for them any more. -/
theorem Waits.respond {W : ℕ} (hWL : 2 * W ≤ G.aggLen) (hheld : Held G pay regs f)
    (hinv : Traffic.Inv W G.aggLen f) {q : ℕ} {i : Fin n} {p : Packet} (h : Waits G pay f q i p) :
    (ingress tbl regs p).1 = regs ∧
      (((ingress tbl regs p).2.2 = .multicast G.groupId ∧
          ∀ j : Fin n, Responds G pay f q j
            (egressRespond (ingress tbl regs p).2.1 (BitVec.ofNat 8 j))) ∨
        ((ingress tbl regs p).2.2 = .l2Forward ∧
          Responds G pay f q i (egressRespond (ingress tbl regs p).2.1 0))) := by
  have hsums : (FitsAt pay Finset.univ q → Sums pay q (ingress tbl regs p).2.1.payload) ∨
      ∀ k, q < f.lo k := by
    have haddr : p.netccl.aggAddr = G.addr q := by
      rw [h.header]
      rfl
    cases hslot : f.slot (q % G.aggLen) with
    | none => exact absurd rfl (hinv.empty _ hslot i q (h.all i))
    | some P =>
      rcases eq_or_ne P q with rfl | hne
      · left
        intro hfits
        have hshows := hheld.shows P hslot
        rw [came_eq_univ.mpr h.all] at hshows
        rw [ingress_secondPass tbl regs h.second]
        refine sums_of_pairs (h.even hfits) fun k => ?_
        dsimp only
        rw [haddr]
        exact (hshows.words hfits k).2
      · right
        exact hinv.passed hWL (h.all i) hslot hne
  rw [ingress_secondPass tbl regs h.second] at hsums ⊢
  dsimp only at hsums ⊢
  rw [h.header] at hsums ⊢
  refine ⟨rfl, ?_⟩
  cases hmc : p.internal.enableMulticast with
  | true => exact Or.inl ⟨rfl, fun j => ⟨h.all, _, respond_multicast hmc _, hsums⟩⟩
  | false => exact Or.inr ⟨rfl, h.all, _, respond_unicast hmc _ _ 0, hsums⟩

/-! ## 5. The next lap -/

/-- None of the packets of the next lap has arrived. -/
def Unseen (G : Plan) (regs : Regs) (t : ℕ) : Prop :=
  ∀ q, t ≤ q → q < t + G.aggLen → regs.ranksAt (G.addr q) (G.version q) = ∅

/-- When packet `t` has arrived, its slot is free for the packet a lap further on. -/
theorem Unseen.next {t : ℕ} (hdvd : G.aggLen ∣ 2 ^ 32) (hwidth : G.aggLen < 2 ^ 16)
    {regs' : Regs} (h : Unseen G regs t)
    (hframe : ∀ a ≠ G.addr t, regs'.regBitmap a = regs.regBitmap a)
    (hversion : (regs'.regBitmap (G.addr t)).version = G.version t) : Unseen G regs' (t + 1) := by
  intro q hle hlt
  have hpos : 0 < G.aggLen := Nat.pos_of_dvd_of_pos hdvd (by decide)
  by_cases hmod : t % G.aggLen = q % G.aggLen
  · have hlap := Traffic.lap_le hmod (by omega)
    obtain rfl : q = t + G.aggLen := by omega
    rw [Regs.ranksAt, ← (addr_eq_iff hdvd hwidth).mpr hmod, hversion,
      if_neg (version_next hpos hwidth t)]
  · have hne : G.addr q ≠ G.addr t := by
      intro he
      exact hmod ((addr_eq_iff hdvd hwidth).mp he).symm
    have hlap : q ≠ t + G.aggLen := by
      intro he
      exact hmod (by rw [he, Nat.add_mod_right])
    rw [Regs.ranksAt, Regs.ranks, hframe _ hne]
    exact h q (by omega) (by omega)

end NetCCL
