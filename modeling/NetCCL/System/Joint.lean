/-
# The system is a sliding window over shared slots

`Joint G s f` relates a state of the system to a state of the sliding-window protocol
(`Lib/SlotWindow.lean`) in numbers of packets: the windows of the hosts, what they have
accepted, the numbers on the wires, and what has arrived.  The registers hold what has arrived
(`Held`), and whatever waits for its second pass, or is on its way back, is what it should be
(`Waits`, `Responds`).

Every step of the system is some steps of the protocol, possibly none (`Joint.step`).  The one
place where the numbers of packets do not speak for themselves is a response: its receiver
looks at the PSN, which is the number modulo 2^32.  `Joint.answered` is where it matters that
responses are not that late.
-/
import NetCCL.System.Registers

namespace NetCCL

open Lib Switch Backend

variable {n : ℕ} {G : Plan} {tbl : Tables} {s s' : System n} {f f' : Traffic (Fin n)}

/-! ## 1. The relation -/

/-- **The system and the protocol.** -/
structure Joint (G : Plan) (s : System n) (f : Traffic (Fin n)) : Prop where
  member : ∀ i : Fin n, ∃ ctx, ctx G.groupId = G.psn ∧ Member ctx G i (s.host i)
  lo : ∀ i, f.lo i = completed (s.host i).log
  hi : ∀ i, f.hi i = (built (s.host i).log).length
  acc : ∀ i q, q ∈ f.acc i ↔ (s.host i).Acked q
  chan : ∀ i, f.chan i = (s.wire i).map (·.1)
  wire : ∀ i, ∀ x ∈ s.wire i, ∃ p, (built (s.host i).log)[x.1]? = some p ∧ x.2 = p.pkt
  inv : f.Inv (G.aggLen / 2) G.aggLen
  held : Held G s.contribution s.regs f
  recirc : ∀ x ∈ s.recirc, Waits G s.contribution f x.1 x.2.1 x.2.2
  back : ∀ x ∈ s.back, Responds G s.contribution f x.1 x.2.1 x.2.2

theorem two_half_le (a : ℕ) : 2 * (a / 2) ≤ a := Nat.mul_div_le a 2

/-- In an initial state. -/
theorem Joint.init (hG : Created G tbl n) (h : s.Init G) : Joint G s Traffic.start := by
  have hlog : ∀ i, (s.host i).log = [] := by
    intro i
    exact (h.host i).choose_spec.2.2
  have hack : ∀ i q, ¬ (s.host i).Acked q := by
    intro i q
    rintro (hq | ⟨hq, -⟩)
    · rw [hlog] at hq
      exact absurd hq (Nat.not_lt_zero q)
    · rw [hlog] at hq
      exact absurd hq (Nat.not_lt_zero q)
  refine ⟨fun i => ?_, fun i => by rw [hlog]; rfl, fun i => by rw [hlog]; rfl, fun i q => ?_,
    fun i => by rw [h.wire]; rfl, fun i x hx => ?_, .start, ⟨fun q _ => ?_, fun P hP => ?_⟩,
    fun x hx => ?_, fun x hx => ?_⟩
  · obtain ⟨ctx, hctx, hinit⟩ := h.host i
    exact ⟨ctx, hctx, .init hG.limit hinit⟩
  · exact ⟨fun hq => absurd hq (Set.notMem_empty q), fun hq => absurd hq (hack i q)⟩
  · rw [h.wire] at hx
    exact absurd hx List.not_mem_nil
  · have hpos : 0 < G.aggLen := Nat.pos_of_dvd_of_pos hG.dvd (by decide)
    have hslot := h.slots ((G.psn + BitVec.ofNat 32 q).toNat % G.aggLen) (Nat.mod_lt _ hpos)
    exact congrArg BitmapPair.bitmap hslot
  · cases hP
  · rw [h.recirc] at hx
    exact absurd hx List.not_mem_nil
  · rw [h.back] at hx
    exact absurd hx List.not_mem_nil

/-! ## 2. A worker's step -/

/-- What has arrived was built. -/
theorem Joint.lt_built (h : Joint G s f) {i : Fin n} {q : ℕ} (hq : q ∈ f.arr i) :
    q < (built (s.host i).log).length := by
  rw [← h.hi]
  exact h.inv.come i q hq

/-- A worker's step adds to its packets, and its contributions, at the end only. -/
theorem Joint.agree (h : Joint G s f) {i : Fin n} {r : Run} {l : Label} {events : List Event}
    (hturn : Turn G (s.host i) r l events) (wire : Fin n → List (ℕ × Frame)) :
    Agree f s.contribution
      { s with host := Function.update s.host i r, wire := wire : System n }.contribution := by
  intro k q hq
  unfold System.contribution
  dsimp only
  rcases eq_or_ne k i with rfl | hk
  · rw [Function.update_self]
    rcases hturn.built with hb | ⟨p, hb, -⟩
    · rw [hb]
    · rw [hb, List.getElem?_append_left (h.lt_built hq)]
  · rw [Function.update_of_ne hk]

/-- What is accepted after a worker's step. -/
theorem Backend.Turn.acked {r r' : Run} {l : Label} {events : List Event}
    (h : Turn G r r' l events) :
    (∀ x, r'.Acked x ↔ r.Acked x) ∨ ∃ fr p j, l = .receive fr ∧ completed r.log ≤ j ∧
      Answers (Backend.built r.log) (p, fr) j ∧ ∀ x, r'.Acked x ↔ x = j ∨ r.Acked x := by
  cases h.accepts with
  | nothing _ hack => exact Or.inl hack
  | response _ hj hans hack => exact Or.inr ⟨_, _, _, rfl, hj, hans, hack⟩

/-- **A worker's step** is a turn of its sender. -/
theorem Joint.run (h : Joint G s f) {i : Fin n} {l : Label} (hplan : G.Follows i (s.host i) l)
    (hresp : ∀ fr p j, l = .receive fr → completed (s.host i).log ≤ j →
      Answers (built (s.host i).log) (p, fr) j → ∀ k, j ∈ f.arr k)
    (hrun : s.run i l = some s') : ∃ f', Joint G s' f' := by
  obtain ⟨⟨w, events⟩, hw, rfl⟩ := Option.map_eq_some_iff.mp hrun
  obtain ⟨ctx, hctx, hmember⟩ := h.member i
  have hstep : (s.host i).Step l ⟨w, (s.host i).log ++ events⟩ := ⟨events, hw, rfl⟩
  obtain ⟨events', hturn⟩ := hmember.turn hstep
  obtain rfl : events = events' := List.append_cancel_left hturn.log
  have hmember' := hmember.step hplan hstep
  have hagree := h.agree hturn (Function.update s.wire i
    (s.wire i ++ System.sends (built ((s.host i).log ++ events)).length events))
  dsimp only
  generalize hr : Run.mk w ((s.host i).log ++ events) = r at *
  have hlog : (s.host i).log ++ events = r.log := by rw [← hr]
  rw [hlog] at hagree ⊢
  -- the sender's new state, and how the protocol gets there
  have hout : ∀ q ∈ (System.sends (built r.log).length events).map (·.1),
      completed r.log ≤ q ∧ q < (built r.log).length := by
    intro q hq
    obtain ⟨_, hx, rfl⟩ := List.mem_map.mp hq
    obtain ⟨⟨pos, fr⟩, hfr, rfl⟩ := List.mem_map.mp hx
    obtain ⟨p, hle, hp, -⟩ := hturn.sent pos fr hfr
    exact ⟨hle, (List.getElem?_eq_some_iff.mp hp).1⟩
  have hsteps : f.Steps (G.aggLen / 2) G.aggLen
      (f.host i (completed r.log) (built r.log).length {q | r.Acked q}
        (f.chan i ++ (System.sends (built r.log).length events).map (·.1))) := by
    refine Traffic.steps_host ?_ ?_ ?_ ?_ hout
    · rw [h.hi, h.lo]
      rcases hturn.built with hb | ⟨p, hb, hlt⟩
      · exact Or.inl (by rw [hb])
      · exact Or.inr ⟨by rw [hb, List.length_append, List.length_singleton], hlt⟩
    · rcases hturn.acked with hack | ⟨fr, p, j, hl, hj, hans, hack⟩
      · refine Or.inl (Set.ext fun q => ?_)
        rw [h.acc]
        exact hack q
      · refine Or.inr ⟨j, hresp fr p j hl hj hans, Set.ext fun q => ?_⟩
        rw [Set.mem_insert_iff, h.acc]
        exact hack q
    · rw [h.lo]
      exact hturn.le
    · intro q _ hq
      exact hturn.shifted q hq
  have harr : (f.host i (completed r.log) (built r.log).length {q | r.Acked q}
      (f.chan i ++ (System.sends (built r.log).length events).map (·.1))).arr = f.arr := rfl
  have hlo : ∀ k, f.lo k ≤ Function.update f.lo i (completed r.log) k := by
    intro k
    rcases eq_or_ne k i with rfl | hk
    · rw [Function.update_self, h.lo]
      exact hturn.le
    · rw [Function.update_of_ne hk]
  refine ⟨_, ?_, ?_, ?_, ?_, ?_, ?_, h.inv.steps (two_half_le _) hsteps,
    h.held.congr hagree harr rfl,
    fun x hx => (h.recirc x hx).congr hagree fun _ => Set.Subset.refl _,
    fun x hx => (h.back x hx).congr hagree (fun _ => Set.Subset.refl _) hlo⟩
  · refine (Function.forall_update_iff s.host fun k r => ∃ ctx, ctx G.groupId = G.psn ∧
      Member ctx G k r).mpr ⟨⟨ctx, hctx, hmember'⟩, fun k _ => h.member k⟩
  · intro k
    rcases eq_or_ne k i with rfl | hk
    · simp [Traffic.host]
    · simp [Traffic.host, hk, h.lo]
  · intro k
    rcases eq_or_ne k i with rfl | hk
    · simp [Traffic.host]
    · simp [Traffic.host, hk, h.hi]
  · intro k q
    rcases eq_or_ne k i with rfl | hk
    · simp [Traffic.host]
    · simp [Traffic.host, hk, h.acc]
  · intro k
    rcases eq_or_ne k i with rfl | hk
    · simp [Traffic.host, h.chan]
    · simp [Traffic.host, hk, h.chan]
  · intro k x hx
    dsimp only at hx ⊢
    rcases eq_or_ne k i with rfl | hk
    · rw [Function.update_self] at hx ⊢
      rcases List.mem_append.mp hx with hx | hx
      · obtain ⟨p, hp, hpkt⟩ := h.wire k x hx
        refine ⟨p, ?_, hpkt⟩
        rcases hturn.built with hb | ⟨p', hb, -⟩
        · rw [hb]
          exact hp
        · rw [hb, List.getElem?_append_left (List.getElem?_eq_some_iff.mp hp).1]
          exact hp
      · obtain ⟨⟨pos, fr⟩, hfr, rfl⟩ := List.mem_map.mp hx
        obtain ⟨p, -, hp, hpkt⟩ := hturn.sent pos fr hfr
        exact ⟨p, hp, hpkt⟩
    · rw [Function.update_of_ne hk] at hx ⊢
      exact h.wire k x hx

/-! ## 3. The network and the switch -/

/-- What is lost matters to nobody. -/
theorem Joint.lose (h : Joint G s f) {recirc : List (ℕ × Fin n × Packet)}
    {back : List (ℕ × Fin n × Response)} (hrecirc : recirc ⊆ s.recirc) (hback : back ⊆ s.back) :
    Joint G { s with recirc, back } f :=
  { h with
    recirc := fun x hx => h.recirc x (hrecirc hx)
    back := fun x hx => h.back x (hback hx) }

theorem Joint.loseWire (h : Joint G s f) (i : Fin n) (k : ℕ) :
    ∃ f', Joint G { s with wire := Function.update s.wire i ((s.wire i).eraseIdx k) } f' := by
  have hsub : ((s.wire i).eraseIdx k).Sublist (s.wire i) := List.eraseIdx_sublist _ _
  have hlost : (((s.wire i).eraseIdx k).map (·.1)).Sublist (f.chan i) := by
    rw [h.chan]
    exact hsub.map _
  refine ⟨{ f with chan := Function.update f.chan i (((s.wire i).eraseIdx k).map (·.1)) },
    { h with
      chan := fun j => ?_
      wire := fun j x hx => ?_
      inv := h.inv.lose hlost
      held := h.held.congr (fun _ _ _ => rfl) rfl rfl
      recirc := fun x hx => (h.recirc x hx).congr (fun _ _ _ => rfl) fun _ => Set.Subset.refl _
      back := fun x hx => (h.back x hx).congr (fun _ _ _ => rfl) (fun _ => Set.Subset.refl _)
        fun _ => Nat.le_refl _ }⟩
  · rcases eq_or_ne j i with rfl | hj
    · simp
    · simp [hj, h.chan]
  · dsimp only at hx
    rcases eq_or_ne j i with rfl | hj
    · rw [Function.update_self] at hx
      exact h.wire j x (hsub.subset hx)
    · rw [Function.update_of_ne hj] at hx
      exact h.wire j x hx

/-- A frame on the wire is its packet. -/
theorem Joint.arriving (h : Joint G s f) {i : Fin n} {x : ℕ × Frame} (hx : x ∈ s.wire i) :
    Arriving G s.contribution x.1 i (packetOf x.2) := by
  obtain ⟨p, hp, hpkt⟩ := h.wire i x hx
  obtain ⟨ctx, hctx, hmember⟩ := h.member i
  refine ⟨rfl, ?_, ?_⟩
  · rw [hpkt]
    exact (hmember.packet hctx hp).2.2.1
  · rw [System.contribution, hp, hpkt]
    rfl

/-- **A first pass.** -/
theorem Joint.arrive (hG : Created G tbl n) (h : Joint G s f) {i : Fin n} {q : ℕ}
    {fr : Frame} {rest : List (ℕ × Frame)} (hw : s.wire i = (q, fr) :: rest) :
    ∃ f', Joint G
      (System.firstPass tbl { s with wire := Function.update s.wire i rest } q i fr) f' := by
  have hc : f.chan i = q :: rest.map (·.1) := by rw [h.chan, hw]; rfl
  have hp := h.arriving (i := i) (x := (q, fr)) (hw ▸ List.mem_cons_self)
  generalize hf' : Traffic.mk f.lo f.hi f.acc (Function.update f.chan i (rest.map (·.1)))
    (Function.update f.arr i (insert q (f.arr i)))
    (Function.update f.slot (q % G.aggLen) (some q)) = f'
  have hinv' : f'.Inv (G.aggLen / 2) G.aggLen := hf' ▸ h.inv.arrive (two_half_le _) hc
  obtain ⟨hheld, hwaits⟩ := h.held.arrive hG (two_half_le _) h.inv hc hp hf'.symm
  have harr : ∀ k, f.arr k ⊆ f'.arr k := by
    intro k x hx
    rw [← hf']
    exact Traffic.mem_update_insert.mpr (Or.inr hx)
  -- the state without what becomes of the packet
  have hjoint : ∀ recirc : List (ℕ × Fin n × Packet),
      (∀ x ∈ recirc, Waits G s.contribution f' x.1 x.2.1 x.2.2) →
      Joint G { s with
        wire := Function.update s.wire i rest
        regs := (ingress tbl s.regs (packetOf fr)).1
        recirc } f' := by
    intro recirc hrecirc
    refine ⟨h.member, fun k => ?_, fun k => ?_, fun k x => ?_, fun k => ?_, fun k x hx => ?_, hinv',
      hheld, hrecirc, fun x hx => ?_⟩
    · rw [← hf']
      exact h.lo k
    · rw [← hf']
      exact h.hi k
    · rw [← hf']
      exact h.acc k x
    · rw [← hf']
      dsimp only
      rcases eq_or_ne k i with rfl | hk
      · rw [Function.update_self, Function.update_self]
      · rw [Function.update_of_ne hk, Function.update_of_ne hk, h.chan]
    · dsimp only at hx
      rcases eq_or_ne k i with rfl | hk
      · rw [Function.update_self] at hx
        exact h.wire k x (hw ▸ List.mem_cons_of_mem _ hx)
      · rw [Function.update_of_ne hk] at hx
        exact h.wire k x hx
    · refine (h.back x hx).congr (fun _ _ _ => rfl) harr fun k => ?_
      rw [← hf']
  have hold : ∀ x ∈ s.recirc, Waits G s.contribution f' x.1 x.2.1 x.2.2 := fun x hx =>
    (h.recirc x hx).congr (fun _ _ _ => rfl) harr
  refine ⟨f', ?_⟩
  rw [System.firstPass]
  dsimp only
  split
  · rename_i port hport
    refine hjoint _ fun x hx => ?_
    rcases List.mem_append.mp hx with hx | hx
    · exact hold x hx
    · rw [List.mem_singleton.mp hx]
      exact hwaits port hport
  · exact hjoint _ hold

/-- **A second pass.** -/
theorem Joint.second (h : Joint G s f) {q : ℕ} {i : Fin n} {p : Packet}
    (hp : Waits G s.contribution f q i p) : Joint G (System.secondPass tbl s q i p) f := by
  obtain ⟨hregs, hcase⟩ := hp.respond tbl (two_half_le _) h.held h.inv
  have hjoint : ∀ responses : List (ℕ × Fin n × Response),
      (∀ x ∈ responses, Responds G s.contribution f x.1 x.2.1 x.2.2) →
      Joint G { s with
        regs := (ingress tbl s.regs p).1
        back := s.back ++ responses } f := by
    intro responses hresponses
    rw [hregs]
    refine { h with back := fun x hx => ?_ }
    rcases List.mem_append.mp hx with hx | hx
    · exact h.back x hx
    · exact hresponses x hx
  rw [System.secondPass]
  dsimp only
  rcases hcase with ⟨hv, hresp⟩ | ⟨hv, hresp⟩
  · rw [hv]
    refine hjoint _ fun x hx => ?_
    obtain ⟨j, -, rfl⟩ := List.mem_map.mp hx
    exact hresp j
  · rw [hv]
    refine hjoint _ fun x hx => ?_
    rw [List.mem_singleton.mp hx]
    exact hresp

/-- **Which packet a response answers**: the one it was made for, unless it is as late as its
receiver's PSN takes to come round. -/
theorem Joint.answered (h : Joint G s f) {i : Fin n} {q j : ℕ} {r : Response} {p : PktState}
    {typeOfService : BitVec 8} (hr : Responds G s.contribution f q i r)
    (hcurrent : (built (s.host i).log).length ≤ q + 2 ^ 32) (hwidth : G.aggLen < 2 ^ 16)
    (hj : completed (s.host i).log ≤ j)
    (hans : Answers (built (s.host i).log) (p, responseFrame typeOfService r) j) : j = q := by
  obtain ⟨ctx, hctx, hmember⟩ := h.member i
  obtain ⟨x, hx, -, hpsn, -⟩ := hans
  obtain ⟨payload, rfl, -⟩ := hr.eq
  have hq := h.lt_built (hr.all i)
  have hjlt := (List.getElem?_eq_some_iff.mp hx).1
  have hwin := hmember.width
  have hnum : G.psn + BitVec.ofNat 32 q = G.psn + BitVec.ofNat 32 j := by
    rw [← (hmember.packet hctx hx).2.2.2]
    exact hpsn
  have hmod := congrArg BitVec.toNat ((BitVec.add_right_inj _).mp hnum)
  rw [BitVec.toNat_ofNat, BitVec.toNat_ofNat] at hmod
  omega

/-! ## 4. Every step -/

/-- **Every step of the system** is some steps of the protocol. -/
theorem Joint.step (hG : Created G tbl n) (h : Joint G s f) {a : Action n}
    (hok : s.Orderly G a) (hstep : s.Step tbl a s') : ∃ f', Joint G s' f' := by
  unfold System.Step at hstep
  cases a with
  | host i l =>
    have hrun : s.run i l = some s' ∧ ∀ fr, l ≠ .receive fr := by
      cases l with
      | receive fr => cases hstep
      | _ => exact ⟨hstep, by simp⟩
    exact h.run (hok.plan i l rfl) (fun fr _ _ hl => absurd hl (hrun.2 fr)) hrun.1
  | lose i k =>
    obtain rfl := Option.some.inj hstep
    exact h.loseWire i k
  | arrive i =>
    simp only [System.step] at hstep
    split at hstep
    · cases hstep
    · rename_i q fr rest hw
      obtain rfl := Option.some.inj hstep
      exact h.arrive hG hw
  | second k =>
    obtain ⟨⟨q, i, p⟩, hk, rfl⟩ := Option.map_eq_some_iff.mp hstep
    have hwaits := h.recirc _ (List.mem_of_getElem? hk)
    exact ⟨f, (h.lose (List.eraseIdx_subset ..) (List.Subset.refl _)).second hwaits⟩
  | loseSecond k =>
    obtain rfl := Option.some.inj hstep
    exact ⟨f, h.lose (List.eraseIdx_subset ..) (List.Subset.refl _)⟩
  | receive k typeOfService =>
    obtain ⟨⟨q, i, r⟩, hk, hrun⟩ := Option.bind_eq_some_iff.mp hstep
    have hresp := h.back _ (List.mem_of_getElem? hk)
    have hcurrent := hok.current k typeOfService rfl q i r hk
    refine (h.lose (List.Subset.refl _) (List.eraseIdx_subset ..)).run
      (l := .receive (responseFrame typeOfService r)) trivial ?_ hrun
    intro fr p j hl hj hans
    obtain rfl := Label.receive.inj hl
    rw [h.answered hresp hcurrent hG.width hj hans]
    exact hresp.all
  | loseBack k =>
    obtain rfl := Option.some.inj hstep
    exact ⟨f, h.lose (List.Subset.refl _) (List.eraseIdx_subset ..)⟩

/-- **The system simulates the protocol** in every run. -/
theorem joint_reach (hG : Created G tbl n)
    (h : Reach (System.Init G) (System.Step tbl) (System.Orderly G) s) : ∃ f, Joint G s f :=
  h.invariant (P := fun s => ∃ f, Joint G s f) (fun _ hi => ⟨_, .init hG hi⟩)
    fun _ _ _ ⟨_, hf⟩ hok hs => hf.step hG hok hs

end NetCCL
