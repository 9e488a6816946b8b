import TouchDb.Chain.Push
import TouchDb.Heap.Allocated

/-! Pulls: the value of the first or the last node is copied, and the node is destroyed with
the string that the value refers to. -/
namespace TouchDb
open Prog Layout

/-- The block `R` holds a copy of the value `w`; the node at `N` is released, and so are the
blocks `l` of the value. -/
structure Taken (B : ℕ) (t : Touchdb) (a : PoolAlloc) (N : ℕ) (w : TouchdbVal) (l : List ℕ) (R : ℕ)
    (u : Touchdb) (a' : PoolAlloc) : Prop where
  heap : Heap B u a'
  frame : Frame B t a u a' (N :: l)
  fresh : ¬ Used a R
  result : Owns a' R sizeofVal
  val : u.field (B + R) Val.all = w
  used : ∀ o, Used a' o ↔ (Used a o ∨ o = R) ∧ o ∉ N :: l

section Take
variable {B : ℕ} {s t : Touchdb} {a a' : PoolAlloc} {N R o : ℕ} {w : TouchdbVal} {l T : List ℕ}
variable {G : Guard Stop Event}

/-- The node goes last, after its value. -/
theorem wp_freeNode {Q : Unit → Touchdb → Prop} (h : Work B s a T t a') (hG : Lets G B s a T)
    (hm : Mine a T N) (hN : Owns a' N touchdbChainNodeSize)
    (hQ : ∀ a'' u, Freed a' N a'' → Work B s a T u a'' → Frame B t a' u a'' [N] →
      Unwritten B t a' u → Q () u) :
    wp G (do
      let addr ← touchdbAddrOf (B + N)
      touchdbFree addr) Q t := by
  have hb := hN.bounds
  refine wp_bind (wp_touchdbAddrOf h.heap (by omega) ?_)
  exact h.wp_free_kept hG hm hN fun a'' u hf hw hF _ hk => hQ a'' u hf hw hF hk

/-- What the node and its value held can still be read. -/
theorem wp_touchdbChainNodeDestroy_kept {Q : Unit → Touchdb → Prop} (h : Work B s a T t a')
    (hG : Lets G B s a T) (hT : ∀ o ∈ N :: l, Mine a T o) (hN : Owns a' N touchdbChainNodeSize)
    (hv : t.field (B + N) ChainNode.val = w) (hl : ValRep B t a' w l) (hNl : N ∉ l)
    (hQ : ∀ a'' u, Work B s a T u a'' → Frame B t a' u a'' (N :: l) →
      (∀ o, Used a'' o ↔ Used a' o ∧ o ∉ N :: l) → Unwritten B t a' u → Q () u) :
    wp G (touchdbChainNodeDestroy (B + N)) Q t := by
  have hmN : Mine a T N := hT N List.mem_cons_self
  have hat : ValAt B t a' N ChainNode.val.off w := .of_field (hN.mono (by decide)) hv
  unfold touchdbChainNodeDestroy
  rw [if_pos (hN.ptr_ne B)]
  cases hl with
  | plain hw =>
    refine wp_bind (wp_touchdbValDestroy_other h.heap hat hw ?_)
    refine wp_freeNode h hG hmN hN fun a'' u hf hw' hF hk => hQ a'' u hw' hF (fun o => ?_) hk
    rw [hf.used_iff, List.mem_singleton]
  | @str S D v hr =>
    simp only [List.mem_cons, List.not_mem_nil, or_false, not_or] at hNl
    refine wp_bind (wp_touchdbValDestroy_kept h hG hat hr.str (hr.chars.mono (by omega)) hr.data hr.ne
      hNl.2 (hT S (by simp)) (hT D (by simp)) fun a₁ a₂ u hD hS hw₁ hF₁ hk₁ => ?_)
    have hN₂ := hS.keep (hD.keep hN hNl.2) hNl.1
    refine wp_freeNode hw₁ hG hmN hN₂ fun a'' u' hf hw' hF hk => hQ a'' u' hw' ?_ (fun o => ?_)
      (hk₁.trans hk fun _ _ hc => hS.isPayload (hD.isPayload hc))
    · exact (hF₁.trans hF).drop fun o ho => .inl (by
        simp only [List.cons_append, List.nil_append, List.mem_cons, List.not_mem_nil, or_false] at ho ⊢
        rcases ho with rfl | rfl | rfl <;> simp)
    · rw [hf.used_iff, hS.used_iff, hD.used_iff]
      simp only [List.mem_cons, List.not_mem_nil, or_false, not_or]
      tauto

theorem wp_pullNode_kept {Q : ℕ → Touchdb → Prop} (h : Heap B t a) (hG : Lets G B t a (N :: l))
    (hr : Serves G a [sizeofVal]) (hN : Owns a N touchdbChainNodeSize)
    (hv : t.field (B + N) ChainNode.val = w) (hl : ValRep B t a w l) (hNl : N ∉ l)
    (hQ : ∀ R u a', Taken B t a N w l R u a' → Kept B t a u [] → Q (B + R) u) :
    wp G (pullNode (B + N)) Q t := by
  unfold pullNode
  refine wp_bind ((Work.start h).wp_malloc hG hr (by decide) (by decide) fun R a₁ t₁ hR hw₁ hF₁ => ?_)
  have hRO : Owns a₁ R sizeofVal := hR.owns (by decide)
  have hRN : N ≠ R := hN.ne hR.fresh
  have hRl : ∀ o ∈ l, o ≠ R := fun o ho => (hl.owns o ho).ne hR.fresh
  have hmR : Mine a (N :: l) R := hR.mine
  refine wp_bind (wp_loadCell hw₁.heap (hR.keep hN) (by decide) ?_)
  rw [hF₁.field (by simp) hN (by decide), hv]
  refine wp_bind (hw₁.wp_store hG hmR hRO (by decide) fun hw₂ hF₂ => ?_)
  have hF := hF₁.trans hF₂
  refine wp_bind (wp_touchdbChainNodeDestroy_kept hw₂ hG (fun o ho => .inl ho) (hR.keep hN) ?_
    (hl.frame hF (by simpa using hRl)) hNl fun a' u hw₃ hF₃ hU hk => wp_pure ?_)
  · rw [hF.field (by simpa using hRN) hN (by decide)]
    exact hv
  · have hRT : R ∉ N :: l := by
      simp only [List.mem_cons, not_or]
      exact ⟨hRN.symm, fun hc => hRl R hc rfl⟩
    refine hQ R u a' ⟨hw₃.heap, hw₃.frame, fun hu => hu hR.fresh, hF₃.owns hRT hRO, ?_, fun o => ?_⟩
      ((hF.kept_trans hk.kept).drop fun o ho => ?_)
    · rw [hF₃.field hRT hRO (by decide)]
      exact field_write_same _ _ Val.all _
    · rw [hU, hR.used_iff]
    · obtain rfl : o = R := by simpa using ho
      exact .inr ⟨hR.ne_mapRecord, hR.fresh⟩

theorem wp_pullNode {Q : ℕ → Touchdb → Prop} (h : Heap B t a) (hG : Lets G B t a (N :: l))
    (hr : Serves G a [sizeofVal]) (hN : Owns a N touchdbChainNodeSize)
    (hv : t.field (B + N) ChainNode.val = w) (hl : ValRep B t a w l) (hNl : N ∉ l)
    (hQ : ∀ R u a', Taken B t a N w l R u a' → Q (B + R) u) : wp G (pullNode (B + N)) Q t :=
  wp_pullNode_kept h hG hr hN hv hl hNl fun R u a' ht _ => hQ R u a' ht

end Take

/-- What a pull of the node `n` leaves, apart from the chain itself. -/
structure Pulled (B : ℕ) (s : Touchdb) (a : PoolAlloc) (C : ℕ) (n : ListNode) (l : List ℕ) (R : ℕ)
    (u : Touchdb) (a' : PoolAlloc) : Prop where
  heap : Heap B u a'
  frame : Frame B s a u a' (C :: n.blk :: l)
  fresh : ¬ Used a R
  result : Owns a' R sizeofVal
  val : u.field (B + R) Val.all = n.val
  used : ∀ o, Used a' o ↔ (Used a o ∨ o = R) ∧ o ∉ n.blk :: l

section Wp
variable {B : ℕ} {s t : Touchdb} {a a' : PoolAlloc} {C : ℕ} {q : List ListNode} {n : ListNode}
variable {G : Guard Stop Event} {l : List ℕ} {ls : List (List TouchdbVal)}

/-- The record was written before. -/
theorem Taken.pulled {v u : Touchdb} {R : ℕ} (h : Taken B v a n.blk n.val l R u a')
    (hF : Frame B s a v a [C]) : Pulled B s a C n l R u a' where
  heap := h.heap
  frame := (hF.trans h.frame).drop fun o ho => .inl (by simpa using ho)
  fresh := h.fresh
  result := h.result
  val := h.val
  used := h.used

theorem wp_touchdbChainPullHead_nil {Q : ℕ → Touchdb → Prop} (h : Heap B s a)
    (hC : ChainRep B s a C []) (hQ : Q NULL s) : wp G (touchdbChainPullHead (B + C)) Q s := by
  unfold touchdbChainPullHead
  refine wp_bind (wp_followLink_nil h hC.chain (by decide) hC.header ?_)
  rw [if_pos rfl]
  exact wp_pure hQ

theorem wp_touchdbChainPullTail_nil {Q : ℕ → Touchdb → Prop} (h : Heap B s a)
    (hC : ChainRep B s a C []) (hQ : Q NULL s) : wp G (touchdbChainPullTail (B + C)) Q s := by
  unfold touchdbChainPullTail
  refine wp_bind (wp_followLink_nil h hC.chain (by decide) hC.tail ?_)
  rw [if_pos rfl]
  exact wp_pure hQ

/-- The first node is out of sight with the first store. Its value can still be read. -/
theorem wp_touchdbChainPullHead_kept {Q : ℕ → Touchdb → Prop} (h : Heap B s a)
    (hC : ChainRep B s a C (n :: q)) (hl : ValRep B s a n.val l) (hap : n.blk ∉ l ∧ C ∉ l)
    (hq : ∀ m ∈ q, m.blk ∉ l) (hG : Showing G (B + C) ls) (hr : Serves G a [sizeofVal])
    (hnew : q.map ListNode.val ∈ ls)
    (hQ : ∀ R u a', Pulled B s a C n l R u a' → ChainRep B u a' C q → Kept B s a u [C] → Q (B + R) u) :
    wp G (touchdbChainPullHead (B + C)) Q s := by
  have hn : Owns a n.blk touchdbChainNodeSize := hC.node n List.mem_cons_self
  have hnC : n.blk ≠ C := hC.blk_ne List.mem_cons_self
  have hqO : ∀ m ∈ q, Owns a m.blk touchdbChainNodeSize ∧ m.blk ≠ C := fun m hm =>
    ⟨hC.node m (List.mem_cons_of_mem _ hm), hC.blk_ne (List.mem_cons_of_mem _ hm)⟩
  have hnext : linkOf (s.field (B + n.blk) ChainNode.next) = (q.map ListNode.blk).head? := hC.next.1
  unfold touchdbChainPullHead
  refine wp_bind (wp_followLink h hG.reads hC.chain (by decide) hn hC.header_cons ?_)
  rw [if_neg (hn.ptr_ne B)]
  refine wp_bind (wp_loadCell h hn (by decide) ?_)
  set v₁ := s.write (B + C + Chain.header.off) (enc (s.field (B + n.blk) ChainNode.next)) with hv₁
  have hrec {α : Type} [Layout α] {f : Field α} (hf : f.off + size α ≤ touchdbChainNodeSize)
      {m : ListNode} (hm : m ∈ n :: q) : v₁.field (B + m.blk) f = s.field (B + m.blk) f :=
    field_write_other hC.chain (hC.node m hm) (hC.blk_ne hm) (by simp [sizeofChain]) hf
  have hhead : v₁.field (B + C) Chain.header = s.field (B + n.blk) ChainNode.next :=
    field_write_same s _ Chain.header _
  have hw₁ : Walked B v₁ C q := by
    refine ⟨by rw [hhead, hnext], hC.next.2.congr fun o ho => ?_, fun m hm => ?_⟩
    · obtain ⟨m, hm, rfl⟩ := List.mem_map.mp ho
      exact congrArg linkOf (hrec (by decide) (List.mem_cons_of_mem _ hm))
    · rw [hrec (by decide) (List.mem_cons_of_mem _ hm)]
      exact hC.val m (List.mem_cons_of_mem _ hm)
  refine wp_bind (wp_storeCell h hC.chain (by decide) (hG.store hnew (hw₁.sees h.base_eq))
    fun h₁ hF₁ => ?_)
  refine wp_bind (wp_loadCell h₁ hC.chain (by decide) ?_)
  have hsize₁ : v₁.field (B + C) Chain.size = Int32.ofNat (n :: q).length := by
    rw [hv₁, field_write_apart (.inr (by simp))]
    exact hC.size
  have htail₁ : linkOf (v₁.field (B + C) Chain.tail) = ((n :: q).map ListNode.blk).getLast? := by
    rw [hv₁, field_write_apart (.inr (by simp))]
    exact hC.tail
  -- the length, and the destruction of the node, once the tail is right
  have hrest : ∀ v, Heap B v a → Frame B s a v a [C] → Walked B v C q →
      linkOf (v.field (B + C) Chain.tail) = (q.map ListNode.blk).getLast? →
      v.field (B + C) Chain.size = Int32.ofNat (n :: q).length → wp G (do
        let size ← load (B + C) Chain.size
        store (B + C) Chain.size (size - 1)
        pullNode (B + n.blk)) Q v := by
    intro v hv hF hw htail hsize
    have hw' : Walked B (v.write (B + C + Chain.size.off) (enc (v.field (B + C) Chain.size - 1))) C q :=
      hw.writeRecord hC.chain hqO (by simp [sizeofChain])
    refine wp_bind (wp_loadCell hv hC.chain (by decide) ?_)
    refine wp_bind (wp_storeCell hv hC.chain (by decide) (hG.store hnew (hw'.sees hv.base_eq))
      fun hv' hF' => ?_)
    have hFs : Frame B s a _ a [C] := (hF.trans hF').drop (by simp [Mine])
    have hrep : ChainRep B (v.write (B + C + Chain.size.off) (enc (v.field (B + C) Chain.size - 1)))
        a C q := by
      refine ⟨hw', hC.chain, ?_, ?_, fun m hm => (hqO m hm).1, hC.apart.sublist (by simp)⟩
      · rw [field_write_apart (.inl (by decide))]
        exact htail
      · have hlt := hC.length_lt_word
        rw [field_write_same, hsize, Words.ofNat_sub_one (by simp) hlt]
        simp
    have hCT : C ∉ n.blk :: l := by
      simp only [List.mem_cons, not_or]
      exact ⟨hnC.symm, hap.2⟩
    have hqT : ∀ m ∈ q, m.blk ∉ n.blk :: l := by
      intro m hm
      simp only [List.mem_cons, not_or]
      refine ⟨fun hc => ?_, hq m hm⟩
      have h1 := (List.nodup_cons.mp hC.nodup).1
      exact h1 (hc ▸ List.mem_map_of_mem hm)
    refine wp_pullNode_kept hv' (hG.lets hv' hrep hnew hCT hqT) hr hn ?_ (hl.frame hFs ?_) hap.1
      fun R u a' ht hk => hQ R u a' (ht.pulled hFs) (hrep.frame ht.frame hCT hqT) (hFs.kept_trans hk)
    · rw [hFs.field (by simpa using hnC) hn (by decide)]
      exact hC.val n List.mem_cons_self
    · intro o ho hc
      obtain rfl : o = C := by simpa using hc
      exact hap.2 ho
  by_cases hq0 : q = []
  · subst hq0
    have hnil : (v₁.field (B + C) Chain.header).offset = NIL := by
      rw [← linkOf_eq_none, hhead, hnext]
      rfl
    have hB := h.base_pos'
    rw [if_pos hnil]
    have hw₂ : Walked B (v₁.write (B + C + (8 + 4)) (enc NIL)) C [] :=
      hw₁.writeRecord hC.chain hqO (by simp [sizeofChain])
    refine wp_bind (wp_store_shift (by omega) (wp_storeCell h₁ hC.chain (by decide)
      (hG.store hnew (hw₂.sees h.base_eq)) fun h₂ hF₂ => ?_))
    refine hrest _ h₂ ((hF₁.trans hF₂).drop (by simp [Mine])) hw₂ ?_ ?_
    · rw [linkOf_eq_none.mpr]
      · rfl
      · rw [field_addr]
        exact field_write_same v₁ (B + C + Chain.tail.off) Addr.offset NIL
    · rw [field_write_apart (.inr (by simp))]
      exact hsize₁
  · have hne : (v₁.field (B + C) Chain.header).offset ≠ NIL := by
      rw [Ne, ← linkOf_eq_none, hhead, hnext]
      simpa using hq0
    rw [if_neg hne]
    refine wp_bind (wp_pure (hrest _ h₁ hF₁ hw₁ ?_ hsize₁))
    rw [htail₁]
    obtain ⟨m, r, rfl⟩ := List.exists_cons_of_ne_nil hq0
    simp

theorem wp_touchdbChainPullHead {Q : ℕ → Touchdb → Prop} (h : Heap B s a)
    (hC : ChainRep B s a C (n :: q)) (hl : ValRep B s a n.val l) (hap : n.blk ∉ l ∧ C ∉ l)
    (hq : ∀ m ∈ q, m.blk ∉ l) (hG : Showing G (B + C) ls) (hr : Serves G a [sizeofVal])
    (hnew : q.map ListNode.val ∈ ls)
    (hQ : ∀ R u a', Pulled B s a C n l R u a' → ChainRep B u a' C q → Q (B + R) u) :
    wp G (touchdbChainPullHead (B + C)) Q s :=
  wp_touchdbChainPullHead_kept h hC hl hap hq hG hr hnew fun R u a' hp hrep _ => hQ R u a' hp hrep

/-- The node before the last one goes on pointing to it: only the record is repaired. -/
theorem wp_touchdbChainPullTail {Q : ℕ → Touchdb → Prop} (h : Heap B s a)
    (hC : ChainRep B s a C (q ++ [n])) (hprev : nodePrev B s n.blk = (q.map ListNode.blk).getLast?)
    (hl : ValRep B s a n.val l) (hap : n.blk ∉ l ∧ C ∉ l) (hG : ∀ e, G.emits e)
    (hr : Serves G a [sizeofVal])
    (hQ : ∀ R u a', Pulled B s a C n l R u a' → (q = [] → ChainRep B u a' C []) →
      (q ≠ [] → u.field (B + C) Chain.header = s.field (B + C) Chain.header) → Q (B + R) u) :
    wp G (touchdbChainPullTail (B + C)) Q s := by
  have hn : Owns a n.blk touchdbChainNodeSize := hC.node n (by simp)
  have hnC : n.blk ≠ C := hC.blk_ne (by simp)
  have hCT : C ∉ n.blk :: l := by
    simp only [List.mem_cons, not_or]
    exact ⟨hnC.symm, hap.2⟩
  unfold touchdbChainPullTail
  refine wp_bind (wp_followLink h (fun _ _ _ => hG _) hC.chain (by decide) hn hC.tail_concat ?_)
  rw [if_neg (hn.ptr_ne B)]
  refine wp_bind (wp_loadCell h hn (by decide) ?_)
  set v₁ := s.write (B + C + Chain.tail.off) (enc (s.field (B + n.blk) ChainNode.prev)) with hv₁
  have htail₁ : v₁.field (B + C) Chain.tail = s.field (B + n.blk) ChainNode.prev :=
    field_write_same s _ Chain.tail _
  have hsize₁ : v₁.field (B + C) Chain.size = Int32.ofNat (q ++ [n]).length := by
    rw [hv₁, field_write_apart (.inr (by simp))]
    exact hC.size
  refine wp_bind (wp_storeCell h hC.chain (by decide) (hG _) fun h₁ hF₁ => ?_)
  refine wp_bind (wp_loadCell h₁ hC.chain (by decide) ?_)
  -- the length, and the destruction of the node, once the header is right
  have hrest : ∀ v, Heap B v a → Frame B s a v a [C] →
      v.field (B + C) Chain.size = Int32.ofNat (q ++ [n]).length →
      (q = [] → linkOf (v.field (B + C) Chain.header) = none ∧
        linkOf (v.field (B + C) Chain.tail) = none) →
      (q ≠ [] → v.field (B + C) Chain.header = s.field (B + C) Chain.header) → wp G (do
        let size ← load (B + C) Chain.size
        store (B + C) Chain.size (size - 1)
        pullNode (B + n.blk)) Q v := by
    intro v hv hF hsize hnil hkeep
    refine wp_bind (wp_loadCell hv hC.chain (by decide) ?_)
    refine wp_bind (wp_storeCell hv hC.chain (by decide) (hG _) fun hv' hF' => ?_)
    have hFs : Frame B s a _ a [C] := (hF.trans hF').drop (by simp [Mine])
    have hlC : ∀ o ∈ l, o ∉ [C] := by
      intro o ho hc
      obtain rfl : o = C := by simpa using hc
      exact hap.2 ho
    refine wp_pullNode hv' (.of_all hG) hr hn ?_ (hl.frame hFs hlC) hap.1
      fun R u a' ht => hQ R u a' (ht.pulled hFs) (fun hq => ?_) fun hq => ?_
    · rw [hFs.field (by simpa using hnC) hn (by decide)]
      exact hC.val n (by simp)
    · subst hq
      obtain ⟨h1, h2⟩ := hnil rfl
      have hrep : ChainRep B (v.write (B + C + Chain.size.off)
          (enc (v.field (B + C) Chain.size - 1))) a C [] := by
        refine ⟨⟨?_, trivial, by simp⟩, hC.chain, ?_, ?_, by simp, by simp⟩
        · rw [field_write_apart (.inl (by decide)), h1]
          rfl
        · rw [field_write_apart (.inl (by decide)), h2]
          rfl
        · rw [field_write_same, hsize]
          exact Words.ofNat_sub_one (n := 1) (by decide) (by decide)
      exact hrep.frame ht.frame hCT (by simp)
    · rw [ht.frame.field hCT hC.chain (by decide), field_write_apart (.inl (by decide))]
      exact hkeep hq
  by_cases hq0 : q = []
  · subst hq0
    have hlink : linkOf (v₁.field (B + C) Chain.tail) = none := by
      rw [htail₁]
      exact hprev
    have hB := h.base_pos'
    rw [if_pos (linkOf_eq_none.mp hlink)]
    refine wp_bind (wp_store_shift (by omega) (wp_storeCell h₁ hC.chain (by decide) (hG _)
      fun h₂ hF₂ => ?_))
    refine hrest _ h₂ ((hF₁.trans hF₂).drop (by simp [Mine])) ?_ (fun _ => ⟨?_, ?_⟩)
      fun hne => absurd rfl hne
    · rw [field_write_apart (.inr (by simp))]
      exact hsize₁
    · rw [linkOf_eq_none, field_addr]
      exact field_write_same v₁ (B + C + Chain.header.off) Addr.offset NIL
    · rw [field_write_apart (.inr (by simp))]
      exact hlink
  · have hne : (v₁.field (B + C) Chain.tail).offset ≠ NIL := by
      rw [Ne, ← linkOf_eq_none, htail₁]
      intro hc
      have h1 := hprev.symm.trans hc
      simp only [List.getLast?_eq_none_iff, List.map_eq_nil_iff] at h1
      exact hq0 h1
    rw [if_neg hne]
    refine wp_bind (wp_pure (hrest _ h₁ hF₁ hsize₁ (fun hq => absurd hq hq0) fun _ => ?_))
    exact field_write_apart (.inl (by decide))

end Wp

end TouchDb
