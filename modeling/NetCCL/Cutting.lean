/-
# What a PSN means

A collective is cut three times on its way to the wire: `post_collective_c` cuts it into
segments, the load balancer cuts a segment into a share for each worker, `gen_pkt` cuts a
share into packets and numbers them.  The switch adds up whatever the hosts send under one
PSN, so all hosts must cut alike.

`plan` says which bytes of which collective the packets of one worker and group carry, in
order, as a function of the group's OWN sizes and the number of workers.  `cutting_agrees` is
the result: a host that runs these collectives among any others numbers exactly these ranges,
one PSN after the other.
-/
import NetCCL.Frontend.Segmentation
import NetCCL.Backend.LoadBalancer
import NetCCL.Backend.Exclusive
import Mathlib.Algebra.BigOperators.Group.Finset.Basic

namespace NetCCL

open Lib Frontend Backend

/-! ## 1. A host's collectives -/

/-- The arguments of `post_collective_c` that travel. -/
structure Collective where
  opCode : OpCode
  root : BitVec 8
  size : ℕ
  group : Group

/-- An op of `post_sub_collective`, with where it comes from: how many collectives its group
had before, and the offset of the segment. -/
structure Posted where
  own : ℕ
  segment : ℕ
  op : Op

/-- `post_collective_c`; `buf` is where `fifo_allocate` puts each segment. -/
def Collective.post (c : Collective) (own : ℕ) (buf : ℕ → ℕ) : List Posted :=
  (postCollective c.size).map fun seg =>
    ⟨own, seg.offset, ⟨c.opCode, c.root, seg.size, buf seg.offset, c.group⟩⟩

/-- The sizes of a group's own collectives. -/
def sizesOf (g : BitVec 8) (cs : List Collective) : List ℕ :=
  (cs.filter fun c => c.group.groupId = g).map Collective.size

/-- The ops a host posts after the collectives `prior`. -/
def postedFrom (buf : ℕ → ℕ → ℕ) (prior : List Collective) : List Collective → List Posted
  | [] => []
  | c :: rest =>
    c.post (sizesOf c.group.groupId prior).length (buf prior.length) ++
      postedFrom buf (prior ++ [c]) rest

/-- The ops a host posts. -/
def posted (buf : ℕ → ℕ → ℕ) (cs : List Collective) : List Posted := postedFrom buf [] cs

/-- What the load balancer queues for worker `i`. -/
def stream (nworker i : ℕ) (ps : List Posted) : List SubOp :=
  ps.filterMap fun p => (subOps p.op nworker)[i]?

theorem postedFrom_append (buf : ℕ → ℕ → ℕ) (prior l₁ l₂ : List Collective) :
    postedFrom buf prior (l₁ ++ l₂) =
      postedFrom buf prior l₁ ++ postedFrom buf (prior ++ l₁) l₂ := by
  induction l₁ generalizing prior with
  | nil => simp [postedFrom]
  | cons c l₁ ih => simp [postedFrom, ih]

theorem posted_concat (buf : ℕ → ℕ → ℕ) (l : List Collective) (c : Collective) :
    posted buf (l ++ [c]) =
      posted buf l ++ c.post (sizesOf c.group.groupId l).length (buf l.length) := by
  simp [posted, postedFrom_append, postedFrom]

/-- The sub-op of worker `i`. -/
def shareOf (nworker i : ℕ) (p : Posted) : SubOp :=
  subOp p.op nworker i (subOffset p.op.size nworker i)

theorem stream_eq {nworker i : ℕ} (hi : i < nworker) (ps : List Posted) :
    stream nworker i ps = ps.map (shareOf nworker i) := by
  rw [stream, ← List.filterMap_eq_map]
  refine List.filterMap_congr fun p _ => ?_
  rw [subOps_eq, List.getElem?_map, List.getElem?_range hi]
  rfl

/-! ## 2. The plan -/

/-- The bytes of a collective of the group that one packet carries. -/
structure Place where
  collective : ℕ
  segment : ℕ
  range : Span
  deriving DecidableEq

/-- The packets of a share: full ones, a short last one, and one even for no bytes. -/
def packetSpans (s : Span) : List Span :=
  (List.range (max 1 ((s.len + payloadSize - 1) / payloadSize))).map fun j =>
    ⟨s.start + j * payloadSize, min payloadSize (s.len - j * payloadSize)⟩

/-- One worker's packets of a segment. -/
def planSegment (nworker i own segment size : ℕ) : List Place :=
  (packetSpans ((share size nworker i).shift segment)).map fun r => ⟨own, segment, r⟩

/-- One worker's packets of a collective. -/
def planCollective (nworker i own size : ℕ) : List Place :=
  (postCollective size).flatMap fun seg => planSegment nworker i own seg.offset seg.size

/-- One worker's packets of a sequence of collectives, of which the first has number `own`. -/
def planFrom (nworker i : ℕ) : (own : ℕ) → List ℕ → List Place
  | _, [] => []
  | own, size :: rest => planCollective nworker i own size ++ planFrom nworker i (own + 1) rest

/-- **The plan**: which bytes worker `i` sends, packet by packet. -/
def plan (nworker i : ℕ) (sizes : List ℕ) : List Place := planFrom nworker i 0 sizes

/-- The packets of a plan with consecutive PSNs. -/
def numbered (start : BitVec 32) : List Place → List (Place × BitVec 32)
  | [] => []
  | p :: rest => (p, start) :: numbered (start + 1) rest

theorem planFrom_concat (nworker i own : ℕ) (sizes : List ℕ) (size : ℕ) :
    planFrom nworker i own (sizes ++ [size]) =
      planFrom nworker i own sizes ++ planCollective nworker i (own + sizes.length) size := by
  induction sizes generalizing own with
  | nil => simp [planFrom]
  | cons m sizes ih =>
    have hown : own + 1 + sizes.length = own + (sizes.length + 1) := by omega
    rw [List.cons_append, planFrom, ih, planFrom, List.append_assoc, List.length_cons, hown]

theorem numbered_append (start : BitVec 32) (l₁ l₂ : List Place) :
    numbered start (l₁ ++ l₂) =
      numbered start l₁ ++ numbered (start + BitVec.ofNat 32 l₁.length) l₂ := by
  induction l₁ generalizing start with
  | nil => simp [numbered]
  | cons p l₁ ih =>
    rw [List.cons_append, numbered, ih, numbered, List.cons_append, List.length_cons,
      Nat.add_comm l₁.length, BitVec.ofNat_add, ← BitVec.add_assoc]
    rfl

/-- The PSNs are consecutive. -/
theorem numbered_getElem? (start : BitVec 32) (l : List Place) (k : ℕ) :
    (numbered start l)[k]? = (l[k]?).map fun p => (p, start + BitVec.ofNat 32 k) := by
  induction l generalizing start k with
  | nil => rfl
  | cons p l ih =>
    cases k with
    | zero => simp [numbered]
    | succ k =>
      rw [numbered, List.getElem?_cons_succ, ih, List.getElem?_cons_succ, Nat.add_comm k,
        BitVec.ofNat_add, ← BitVec.add_assoc]
      rfl

theorem numbered_range (start : BitVec 32) (n : ℕ) (f : ℕ → Place) :
    numbered start ((List.range n).map f) =
      (List.range n).map fun j => (f j, start + BitVec.ofNat 32 j) := by
  refine List.ext_getElem? fun k => ?_
  rw [numbered_getElem?, List.getElem?_map, List.getElem?_map, Option.map_map]
  rcases Nat.lt_or_ge k n with hk | hk
  · rw [List.getElem?_range hk]; rfl
  · rw [List.getElem?_eq_none (by simpa using hk)]; rfl

/-! ## 3. What a host numbers -/

variable (ctx : BitVec 8 → BitVec 32)

/-- Where a packet of group `g` stands in its group's collectives, with its PSN. -/
def place (ps : List Posted) (g : BitVec 8) (c : Cut) : Option (Place × BitVec 32) :=
  match ps[c.subOp]? with
  | some p =>
    if p.op.group.groupId = g then
      some (⟨p.own, p.segment, ⟨p.segment + (c.data - p.op.shmBuffer), c.size⟩⟩, c.psn)
    else none
  | none => none

/-- The packets of group `g` that worker `i` of a host builds. -/
def placements (nworker i : ℕ) (ps : List Posted) (g : BitVec 8) : List (Place × BitVec 32) :=
  (cuts ctx (stream nworker i ps)).filterMap (place ps g)

/-- What the ops of group `g` come to. -/
def planOf (nworker i : ℕ) (g : BitVec 8) (ps : List Posted) : List Place :=
  (ps.filter fun p => p.op.group.groupId = g).flatMap fun p =>
    planSegment nworker i p.own p.segment p.op.size

theorem pktCount_eq (s : SubOp) :
    pktCount s = max 1 ((s.size + payloadSize - 1) / payloadSize) := by
  rw [pktCount]
  generalize (s.size + payloadSize - 1) / payloadSize = q
  split <;> omega

theorem planSegment_length (nworker i : ℕ) (p : Posted) :
    (planSegment nworker i p.own p.segment p.op.size).length = pktCount (shareOf nworker i p) := by
  rw [planSegment, List.length_map, packetSpans, List.length_map, List.length_range, pktCount_eq]
  rfl

theorem planOf_concat (nworker i : ℕ) (g : BitVec 8) (ps : List Posted) (p : Posted) :
    planOf nworker i g (ps ++ [p]) = planOf nworker i g ps ++
      if p.op.group.groupId = g then planSegment nworker i p.own p.segment p.op.size else [] := by
  rw [planOf, planOf, List.filter_append, List.flatMap_append]
  by_cases hg : p.op.group.groupId = g
  · rw [if_pos hg, List.filter_cons_of_pos (by simpa using hg)]
    simp
  · rw [if_neg hg, List.filter_cons_of_neg (by simpa using hg)]
    rfl

/-- The counter of a group counts its packets. -/
theorem pktsOf_stream {nworker i : ℕ} (hi : i < nworker) (g : BitVec 8) (ps : List Posted) :
    pktsOf (stream nworker i ps) g = (planOf nworker i g ps).length := by
  induction ps using List.reverseRecOn with
  | nil => rfl
  | append_singleton ps p ih =>
    rw [stream_eq hi] at ih ⊢
    rw [planOf_concat, List.length_append, ← ih, List.map_append, pktsOf, pktsOf,
      List.filter_append, List.map_append, List.sum_append]
    congr 1
    have hgroup : (shareOf nworker i p).op.group.groupId = p.op.group.groupId := rfl
    by_cases hg : p.op.group.groupId = g
    · rw [if_pos hg, planSegment_length, List.map_singleton,
        List.filter_cons_of_pos (by simpa [hgroup] using hg)]
      simp
    · rw [if_neg hg, List.map_singleton, List.filter_cons_of_neg (by simpa [hgroup] using hg)]
      rfl

/-- The packets of one share, placed. -/
theorem place_share {nworker i : ℕ} (ps : List Posted) (p : Posted) (g : BitVec 8)
    (start : BitVec 32) :
    (cutSubOp ps.length (shareOf nworker i p) start).filterMap (place (ps ++ [p]) g) =
      if p.op.group.groupId = g then
        numbered start (planSegment nworker i p.own p.segment p.op.size) else [] := by
  have hget : (ps ++ [p])[ps.length]? = some p := List.getElem?_concat_length
  by_cases hg : p.op.group.groupId = g
  · have hone : ∀ j, place (ps ++ [p]) g (cutAt ps.length (shareOf nworker i p) start j) =
        some (⟨p.own, p.segment, ⟨p.segment + (subOffset p.op.size nworker i + j * payloadSize),
          min payloadSize (subSize p.op.size nworker i - j * payloadSize)⟩⟩,
          start + BitVec.ofNat 32 j) := by
      intro j
      have hdata : (shareOf nworker i p).data + j * payloadSize - p.op.shmBuffer =
          subOffset p.op.size nworker i + j * payloadSize := by
        have hstart : (shareOf nworker i p).data =
          p.op.shmBuffer + subOffset p.op.size nworker i := rfl
        rw [hstart, Nat.add_assoc, Nat.add_sub_cancel_left]
      rw [place]
      simp only [cutAt, hget, if_pos hg, hdata]
      rfl
    rw [if_pos hg, planSegment, packetSpans, List.map_map, numbered_range, cutSubOp,
      List.filterMap_map, pktCount_eq, ← List.filterMap_eq_map]
    refine List.filterMap_congr fun j _ => ?_
    rw [Function.comp_apply, hone, ← Nat.add_assoc]
    rfl
  · rw [if_neg hg]
    refine List.filterMap_eq_nil_iff.mpr fun c hc => ?_
    obtain ⟨j, -, rfl⟩ := List.mem_map.mp hc
    rw [place]
    simp only [cutAt, hget, if_neg hg]

/-- Earlier packets stay where they are. -/
theorem place_concat {ps : List Posted} (p : Posted) (g : BitVec 8) {c : Cut}
    (h : c.subOp < ps.length) : place (ps ++ [p]) g c = place ps g c := by
  rw [place, place, List.getElem?_append_left h]

/-- **What a host numbers** for a group is what its ops of that group come to. -/
theorem placements_eq_planOf {nworker i : ℕ} (hi : i < nworker) (g : BitVec 8)
    (ps : List Posted) :
    placements ctx nworker i ps g = numbered (ctx g) (planOf nworker i g ps) := by
  induction ps using List.reverseRecOn with
  | nil => rfl
  | append_singleton ps p ih =>
    have hlen : (stream nworker i ps).length = ps.length := by rw [stream_eq hi, List.length_map]
    have hstream : stream nworker i (ps ++ [p]) = stream nworker i ps ++ [shareOf nworker i p] := by
      rw [stream_eq hi, stream_eq hi, List.map_append]; rfl
    have hold : (cuts ctx (stream nworker i ps)).filterMap (place (ps ++ [p]) g) =
        placements ctx nworker i ps g := by
      refine List.filterMap_congr fun c hc => place_concat p g ?_
      exact hlen ▸ cuts_subOp_lt hc
    rw [placements, hstream, cuts_concat, List.filterMap_append, hold, ih, hlen, place_share,
      planOf_concat, numbered_append, ← pktsOf_stream hi]
    congr 1
    by_cases hg : p.op.group.groupId = g
    · have hshare : (shareOf nworker i p).op.group.groupId = g := hg
      rw [if_pos hg, if_pos hg, hshare]
      rfl
    · rw [if_neg hg, if_neg hg]; rfl

/-- **The ops of a group come to its plan**, whatever the host does in between. -/
theorem planOf_posted (nworker i : ℕ) (g : BitVec 8) (buf : ℕ → ℕ → ℕ) (cs : List Collective) :
    planOf nworker i g (posted buf cs) = plan nworker i (sizesOf g cs) := by
  induction cs using List.reverseRecOn with
  | nil => rfl
  | append_singleton cs c ih =>
    rw [posted_concat, planOf, List.filter_append, List.flatMap_append, ← planOf, ih]
    by_cases hg : c.group.groupId = g
    · have hall : (c.post (sizesOf c.group.groupId cs).length (buf cs.length)).filter
          (fun p => p.op.group.groupId = g) =
          c.post (sizesOf c.group.groupId cs).length (buf cs.length) :=
        List.filter_eq_self.mpr fun p hp => by
          obtain ⟨seg, -, rfl⟩ := List.mem_map.mp hp
          exact decide_eq_true hg
      have hsizes : sizesOf g (cs ++ [c]) = sizesOf g cs ++ [c.size] := by
        simp [sizesOf, hg]
      rw [hall, hsizes, plan, plan, planFrom_concat, Nat.zero_add, hg, Collective.post,
        List.flatMap_map]
      rfl
    · have hnone : (c.post (sizesOf c.group.groupId cs).length (buf cs.length)).filter
          (fun p => p.op.group.groupId = g) = [] :=
        List.filter_eq_nil_iff.mpr fun p hp => by
          obtain ⟨seg, -, rfl⟩ := List.mem_map.mp hp
          simpa using hg
      have hsizes : sizesOf g (cs ++ [c]) = sizesOf g cs := by
        simp [sizesOf, hg]
      rw [hnone, hsizes]
      exact List.append_nil _

/-! ## 4. Every byte once -/

theorem packetSpans_tiles_take (s : Span) (n : ℕ) (h : (n - 1) * payloadSize ≤ s.len) :
    Tiles s.start ((List.range n).map fun j =>
      ⟨s.start + j * payloadSize, min payloadSize (s.len - j * payloadSize)⟩)
      (s.start + min s.len (n * payloadSize)) := by
  induction n with
  | zero => rw [Nat.zero_mul, Nat.min_zero]; exact .nil _
  | succ n ih =>
    rw [Nat.add_sub_cancel] at h
    have hprev := ih (Nat.le_trans (Nat.mul_le_mul_right _ (Nat.sub_le n 1)) h)
    rw [Nat.min_eq_right h] at hprev
    have hstop : (⟨s.start + n * payloadSize, min payloadSize (s.len - n * payloadSize)⟩ :
        Span).stop = s.start + min s.len ((n + 1) * payloadSize) := by
      simp only [Span.stop, Nat.succ_mul]
      omega
    rw [List.range_succ, List.map_append, ← hstop]
    exact Tiles.snoc hprev

/-- The packets of a share tile it. -/
theorem packetSpans_tiles (s : Span) : Tiles s.start (packetSpans s) s.stop := by
  have h := packetSpans_tiles_take s (max 1 ((s.len + payloadSize - 1) / payloadSize))
    (by simp only [payloadSize]; omega)
  rwa [Nat.min_eq_left (by simp only [payloadSize]; omega)] at h

theorem sum_ite_eq_countP (l : List ℕ) (q : ℕ → Bool) :
    (l.map fun i => if q i = true then 1 else 0).sum = l.countP q := by
  induction l with
  | nil => rfl
  | cons i l ih => rw [List.map_cons, List.sum_cons, ih, List.countP_cons, Nat.add_comm]

/-- How many packets of a list carry byte `x`. -/
def carriers (x : ℕ) (l : List Place) : ℕ := l.countP fun p => decide (p.range.Has x)

theorem carriers_segment (nworker i own segment size x : ℕ) :
    carriers x (planSegment nworker i own segment size) =
      if ((share size nworker i).shift segment).Has x then 1 else 0 := by
  rw [carriers, planSegment, List.countP_map]
  exact (packetSpans_tiles _).countP x

/-- In a segment every byte is carried once, by one of the workers. -/
theorem carriers_segment_sum {nworker : ℕ} (hn : 1 ≤ nworker) (own segment size x : ℕ) :
    ((List.range nworker).map fun i =>
      carriers x (planSegment nworker i own segment size)).sum =
      if (⟨segment, size⟩ : Span).Has x then 1 else 0 := by
  have h := ((shares_tile size hn).shift segment).countP x
  rw [List.map_map, List.countP_map, ← sum_ite_eq_countP] at h
  simp only [carriers_segment]
  rw [Nat.add_zero] at h
  refine Eq.trans ?_ h
  congr 1
  refine List.map_congr_left fun i _ => ?_
  by_cases hx : ((share size nworker i).shift segment).Has x <;> simp [hx]

/-- In a collective every byte is carried once, in one of the segments. -/
theorem carriers_collective {nworker : ℕ} (hn : 1 ≤ nworker) (own size x : ℕ) :
    ((List.range nworker).map fun i => carriers x (planCollective nworker i own size)).sum =
      if x < size then 1 else 0 := by
  have hsegs : ∀ segs : List Segment, ((List.range nworker).map fun i => carriers x
      (segs.flatMap fun seg => planSegment nworker i own seg.offset seg.size)).sum =
      (segs.map Segment.span).countP fun s => decide (s.Has x) := by
    intro segs
    induction segs with
    | nil => simp [carriers]
    | cons seg segs ih =>
      simp only [carriers, List.flatMap_cons, List.countP_append, List.sum_map_add]
      have hone := carriers_segment_sum hn own seg.offset seg.size x
      simp only [carriers] at hone ih
      have hspan : (⟨seg.offset, seg.size⟩ : Span) = seg.span := rfl
      rw [ih, hone, List.map_cons, List.countP_cons, Nat.add_comm, hspan]
      by_cases hx : seg.span.Has x
      · rw [if_pos hx, if_pos (decide_eq_true hx)]
      · rw [if_neg hx, if_neg (by simpa using hx)]
  have htiles := (postCollective_tiles size).countP x
  simp only [planCollective]
  rw [hsegs, htiles]
  simp

theorem planFrom_collective_le (nworker i own : ℕ) (sizes : List ℕ) :
    ∀ p ∈ planFrom nworker i own sizes, own ≤ p.collective := by
  induction sizes generalizing own with
  | nil => intro p hp; exact absurd hp List.not_mem_nil
  | cons size sizes ih =>
    intro p hp
    rcases List.mem_append.mp hp with hp | hp
    · obtain ⟨seg, -, hp⟩ := List.mem_flatMap.mp hp
      obtain ⟨r, -, rfl⟩ := List.mem_map.mp hp
      exact Nat.le_refl _
    · exact Nat.le_of_succ_le (ih (own + 1) p hp)

theorem planCollective_collective {nworker i own size : ℕ} {p : Place}
    (h : p ∈ planCollective nworker i own size) : p.collective = own := by
  obtain ⟨seg, -, h⟩ := List.mem_flatMap.mp h
  obtain ⟨r, -, rfl⟩ := List.mem_map.mp h
  rfl

/-- The packets of one collective, picked out of the plan. -/
theorem planFrom_filter (nworker i own : ℕ) {n : ℕ} {sizes : List ℕ} {size : ℕ}
    (h : sizes[n]? = some size) :
    (planFrom nworker i own sizes).filter (fun p => p.collective = own + n) =
      planCollective nworker i (own + n) size := by
  induction sizes generalizing own n with
  | nil => exact absurd h (by simp)
  | cons m sizes ih =>
    rw [planFrom, List.filter_append]
    cases n with
    | zero =>
      obtain rfl : m = size := Option.some.inj h
      simp only [Nat.add_zero]
      rw [List.filter_eq_self.mpr fun p hp => decide_eq_true (planCollective_collective hp),
        List.filter_eq_nil_iff.mpr fun p hp => ?_, List.append_nil]
      have := planFrom_collective_le _ _ _ _ p hp
      simp only [decide_eq_true_eq]
      omega
    | succ n =>
      have hget : sizes[n]? = some size := by simpa using h
      have hrest := ih (own + 1) hget
      have hown : own + (n + 1) = own + 1 + n := by omega
      rw [List.filter_eq_nil_iff.mpr fun p hp => ?_, List.nil_append, hown, hrest]
      have := planCollective_collective hp
      simp only [decide_eq_true_eq]
      omega

theorem planFrom_sorted (nworker i own : ℕ) (sizes : List ℕ) :
    (planFrom nworker i own sizes).Pairwise fun p q => p.collective ≤ q.collective := by
  induction sizes generalizing own with
  | nil => exact .nil
  | cons size sizes ih =>
    refine List.pairwise_append.mpr ⟨?_, ih (own + 1), fun p hp q hq => ?_⟩
    · exact List.pairwise_of_forall_mem_list fun p hp q hq => by
        rw [planCollective_collective hp, planCollective_collective hq]
    · rw [planCollective_collective hp]
      exact Nat.le_of_succ_le (planFrom_collective_le _ _ _ _ q hq)

/-- Every worker has a packet in every segment. -/
theorem mem_plan {nworker i n : ℕ} {sizes : List ℕ} {size : ℕ} (h : sizes[n]? = some size)
    {seg : Segment} (hseg : seg ∈ postCollective size) :
    ∃ p ∈ plan nworker i sizes, p.collective = n ∧ p.segment = seg.offset := by
  have hmem : (⟨n, seg.offset, ⟨((share seg.size nworker i).shift seg.offset).start +
      0 * payloadSize, min payloadSize (((share seg.size nworker i).shift seg.offset).len -
      0 * payloadSize)⟩⟩ : Place) ∈ planCollective nworker i n size := by
    refine List.mem_flatMap.mpr ⟨seg, hseg, List.mem_map.mpr ⟨_, List.mem_map.mpr ⟨0, ?_, rfl⟩,
      rfl⟩⟩
    exact List.mem_range.mpr (Nat.lt_of_lt_of_le Nat.one_pos (Nat.le_max_left _ _))
  have hfilter := planFrom_filter nworker i 0 h
  rw [Nat.zero_add] at hfilter
  exact ⟨_, (List.mem_filter.mp (hfilter ▸ hmem)).1, rfl, rfl⟩

/-! ## 5. Agreement -/

/-- What a run has numbered of group `g`. -/
def Backend.Run.numbered (r : Run) (ps : List Posted) (g : BitVec 8) : List (Place × BitVec 32) :=
  (built r.log).filterMap fun p => place ps g p.cut

/-- A run numbers what its host posts, from the beginning. -/
theorem Backend.Run.numbered_placements {nworker i : ℕ} {r : Run} {ps : List Posted}
    (h : Reach (Run.Init ctx) Run.Step Free r) (hheap : r.worker.heap <+: stream nworker i ps)
    (g : BitVec 8) : r.numbered ps g <+: placements ctx nworker i ps g := by
  obtain ⟨k, sent, hcur⟩ := cursor_reach h
  obtain ⟨later, hlater⟩ := hheap
  have hcuts := hcur.built_cuts.trans (cuts_mono ctx r.worker.heap later)
  rw [hlater] at hcuts
  have hmap : r.numbered ps g = ((built r.log).map PktState.cut).filterMap (place ps g) := by
    rw [List.filterMap_map]; rfl
  rw [hmap]
  exact hcuts.filterMap _

/-- **All ranks agree on what a PSN means.**  A host whose collectives of group `g` have the
sizes `sizes` cuts them, for worker `i`, into the ranges of `plan`, and its worker numbers
these from the group's counter on; the ranges of a collective carry each of its bytes once,
with a packet for each worker and segment, and those of different collectives follow each
other. -/
theorem cutting_agrees {nworker : ℕ} (hn : 1 ≤ nworker) (g : BitVec 8) (sizes : List ℕ) :
    (∀ ctx buf cs i, i < nworker → sizesOf g cs = sizes →
      placements ctx nworker i (posted buf cs) g = numbered (ctx g) (plan nworker i sizes) ∧
      ∀ r, Reach (Run.Init ctx) Run.Step Free r →
        r.worker.heap <+: stream nworker i (posted buf cs) →
        r.numbered (posted buf cs) g <+: numbered (ctx g) (plan nworker i sizes)) ∧
    (∀ i, (plan nworker i sizes).Pairwise fun p q => p.collective ≤ q.collective) ∧
    ∀ (n size : ℕ), sizes[n]? = some size →
      (∀ x, ((List.range nworker).map fun i =>
        carriers x ((plan nworker i sizes).filter fun p => p.collective = n)).sum =
          if x < size then 1 else 0) ∧
      ∀ i < nworker, ∀ seg ∈ postCollective size,
        ∃ p ∈ plan nworker i sizes, p.collective = n ∧ p.segment = seg.offset := by
  refine ⟨fun ctx buf cs i hi hsizes => ?_, fun i => planFrom_sorted nworker i 0 sizes,
    fun n size hsize => ⟨fun x => ?_, fun i _ seg hseg => mem_plan hsize hseg⟩⟩
  · have hall : placements ctx nworker i (posted buf cs) g =
        numbered (ctx g) (plan nworker i sizes) := by
      rw [placements_eq_planOf ctx hi, planOf_posted, hsizes]
    exact ⟨hall, fun r hr hheap => hall ▸ Run.numbered_placements ctx hr hheap g⟩
  · have hfilter : ∀ i, (plan nworker i sizes).filter (fun p => p.collective = n) =
        planCollective nworker i n size := by
      intro i
      have h := planFrom_filter nworker i 0 hsize
      rwa [Nat.zero_add] at h
    simp only [hfilter]
    exact carriers_collective hn n size x

/-- Group 1 reduces 600 bytes, group 2 a word, and group 1 a segment and 600 bytes. -/
def threeCollectives : List Collective :=
  [⟨.allReduce, 0, 600, ⟨1, 2, 0, 0, 64⟩⟩, ⟨.allReduce, 0, 4, ⟨2, 2, 0, 64, 64⟩⟩,
    ⟨.allReduce, 0, frontendSegmentSize + 600, ⟨1, 2, 0, 0, 64⟩⟩]

/-- What is posted for them: the collectives are in three blocks, one behind the other. -/
def fourSegments : List Posted :=
  [⟨0, 0, ⟨.allReduce, 0, 600, 0, ⟨1, 2, 0, 0, 64⟩⟩⟩,
    ⟨0, 0, ⟨.allReduce, 0, 4, 1024, ⟨2, 2, 0, 64, 64⟩⟩⟩,
    ⟨1, 0, ⟨.allReduce, 0, frontendSegmentSize, 2048, ⟨1, 2, 0, 0, 64⟩⟩⟩,
    ⟨1, frontendSegmentSize, ⟨.allReduce, 0, 600, 2048 + frontendSegmentSize, ⟨1, 2, 0, 0, 64⟩⟩⟩]

theorem posted_threeCollectives :
    posted (fun n offset => 1024 * n + offset) threeCollectives = fourSegments := by
  simp [threeCollectives, fourSegments, posted, postedFrom, Collective.post, postCollective,
    postCollectiveFrom, frontendSegmentSize, sizesOf]

/-- The second of two workers, from the first collective to the first packet of the third. -/
def secondOfTwo : List Label :=
  let queue := fun p => Label.pushReq (shareOf 2 1 p)
  (fourSegments.take 1).map queue ++
    [.loopTop 0, .endRx, .startTx, .sendOne, .sendOne, .sendOne, .congestion, .loopTop 1,
      .receive (answer 0 0), .receive (answer 1 0), .endRx] ++
  ((fourSegments.drop 1).take 1).map queue ++
    [.startTx, .sendOne, .sendOne, .congestion, .loopTop 2,
      .receive { answer 0 0 with inc := ⟨1, 2, 0, 0, 0, 0⟩ }, .endRx] ++
  (fourSegments.drop 2).map queue ++ [.startTx, .sendOne]

/-- Two workers, and two groups in turn: the second worker has its half of 600 bytes in packets 0
and 1, and goes on with packet 2 in the middle of the first segment of the next collective; the
second segment is in the plan too. -/
theorem cutting_agrees_three :
    placements (fun _ => 0) 2 1 fourSegments 1 =
      numbered 0 (plan 2 1 [600, frontendSegmentSize + 600]) ∧
    (∃ p ∈ plan 2 1 [600, frontendSegmentSize + 600],
      p.collective = 1 ∧ p.segment = frontendSegmentSize) ∧
    ∃ r, Run.start.exec (fun _ _ => true) secondOfTwo = some r ∧ (built r.log).length = 4 ∧
      r.numbered fourSegments 1 = [(⟨0, 0, ⟨300, 256⟩⟩, 0), (⟨0, 0, ⟨556, 44⟩⟩, 1),
        (⟨1, 0, ⟨1048576, 256⟩⟩, 2)] ∧
      r.numbered fourSegments 1 <+: numbered 0 (plan 2 1 [600, frontendSegmentSize + 600]) := by
  have hrun : (Run.start.exec (fun _ _ => true) secondOfTwo).map (fun r =>
      (r.worker.heap, (built r.log).length, r.numbered fourSegments 1)) =
      some (fourSegments.map (shareOf 2 1), 4, [(⟨0, 0, ⟨300, 256⟩⟩, 0), (⟨0, 0, ⟨556, 44⟩⟩, 1),
        (⟨1, 0, ⟨1048576, 256⟩⟩, 2)]) := by decide +kernel
  obtain ⟨r, hr, hview⟩ := Option.map_eq_some_iff.mp hrun
  simp only [Prod.mk.injEq] at hview
  obtain ⟨hheap, hbuilt, hnum⟩ := hview
  have hreach : Reach (Run.Init fun _ => 0) Run.Step Free r :=
    Run.exec_reach (fun _ _ _ => trivial) _ (.init Run.start_init) hr
  have hsizes : sizesOf 1 threeCollectives = [600, frontendSegmentSize + 600] := rfl
  have hseg : (⟨frontendSegmentSize, 600, false, true⟩ : Segment) ∈
      postCollective (frontendSegmentSize + 600) := by
    simp [postCollective, postCollectiveFrom, frontendSegmentSize]
  obtain ⟨hall, -, hplan⟩ := cutting_agrees (Nat.le_succ 1) 1 [600, frontendSegmentSize + 600]
  obtain ⟨hplaces, hprefix⟩ := hall (fun _ => 0) (fun n offset => 1024 * n + offset)
    threeCollectives 1 (Nat.lt_succ_self 1) hsizes
  rw [posted_threeCollectives] at hplaces hprefix
  refine ⟨hplaces, (hplan 1 _ rfl).2 1 (Nat.lt_succ_self 1) _ hseg, r, hr, hbuilt, hnum,
    hprefix r hreach ?_⟩
  rw [stream_eq (Nat.lt_succ_self 1), hheap]

end NetCCL
