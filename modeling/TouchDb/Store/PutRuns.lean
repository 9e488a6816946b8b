import TouchDb.Store.Puts

/-! Runs of `touchdb_put` alone. An overwrite releases the block that it has just stored, so
that a key keeps its value as long as no put follows. -/
namespace TouchDb
open Prog Layout

/-- A run of `touchdb_put` on a new store. -/
def runPuts (f : NewFiles) (kvs : Puts) : Except Stop Touchdb :=
  runNew f (kvs.map fun x => .put x.1 x.2)

/-- The value that the index holds for `e`, at offset `V`. -/
structure PutVal (B : ℕ) (kvs : Puts) (s : Touchdb) (a : PoolAlloc) (ix : Index) (e : MapNode)
    (V : ℕ) : Prop where
  val : s.field (B + e.blk) MapEntry.val = ⟨.str, addrOf V⟩
  le : V ≤ touchdbDefaultPoolSize
  /-- what was put once is in a block of its own -/
  once : ∀ k v : Text, k.1 = e.key → kvs.last k = some v → kvs.Once k →
    Owns a V (v.1.strlen + 1) ∧ V ∉ ix.blocks ∧ s.holds (B + V) v.1
  /-- what was put last is still there -/
  newest : ∀ k v : Text, k.1 = e.key → kvs.getLast? = some (k, v) → s.holds (B + V) v.1

abbrev PutInv (B : ℕ) := PutsInv (fun kvs s a ix e => ∃ V, PutVal B kvs s a ix e V) B

section Step
variable {B : ℕ} {s u : Touchdb} {a a' : PoolAlloc} {ix ix' : Index} {e : MapNode}
variable {kvs : Puts} {k v : Text} {E K V : ℕ}

/-- The value of an entry whose key is not the one that is put. -/
theorem PutVal.other (h : PutVal B kvs s a ix e V) (hkeep : Keeps B s a ix u a' ix' e)
    (hne : e.key ≠ k.1) : PutVal B (kvs ++ [(k, v)]) u a' ix' e V where
  val := hkeep.val.trans h.val
  le := h.le
  once k' v' hk hl ho := by
    obtain ⟨T, hF, hT⟩ := hkeep.frame
    obtain ⟨hl, ho⟩ := once_of_append hne hk hl ho
    obtain ⟨h1, h2, h3⟩ := h.once k' v' hk hl ho
    obtain ⟨h4, h5⟩ := hT V _ h1 h2
    exact ⟨hF.owns h4 h1, h5, hF.holds h4 h1 h3⟩
  newest k' v' hk hl := by
    have hx : (k, v) = (k', v') := by simpa using hl
    obtain ⟨rfl, rfl⟩ := Prod.mk.inj hx
    exact absurd hk.symm hne

/-- The value that was just put. -/
theorem PutVal.put (hval : u.field (B + e.blk) MapEntry.val = ⟨.str, addrOf V⟩)
    (hV : V ≤ touchdbDefaultPoolSize) (hk : k.1 = e.key) (hh : u.holds (B + V) v.1)
    (ho : (kvs ++ [(k, v)]).Once k → Owns a' V (v.1.strlen + 1) ∧ V ∉ ix'.blocks) :
    PutVal B (kvs ++ [(k, v)]) u a' ix' e V where
  val := hval
  le := hV
  once k' v' hk' hl hon := by
    obtain rfl : k' = k := Subtype.ext (hk'.trans hk.symm)
    rw [History.last_append_same] at hl
    obtain rfl := Option.some.inj hl
    exact ⟨(ho hon).1, (ho hon).2, hh⟩
  newest k' v' _ hl := by
    have hx : (k, v) = (k', v') := by simpa using hl
    obtain ⟨rfl, rfl⟩ := Prod.mk.inj hx
    exact hh

theorem PutInv.wp_insert {G : Guard Stop Event} {R : Touchdb → Prop} (h : PutInv B kvs s a ix)
    (hG : ∀ e, G.emits e) (hr : Serves G a [mapEntrySize, k.1.strlen + 1, v.1.strlen + 1])
    (hk : ix.find k.1 = none)
    (hQ : ∀ E K V a₁ a₂ a' u ix', Handed a mapEntrySize E a₁ → Handed a₁ (k.1.strlen + 1) K a₂ →
      Handed a₂ (v.1.strlen + 1) V a' → Inserted B s a ix k.1 E K u a' ix' →
      PutInv B (kvs ++ [(k, v)]) u a' ix' → u.holds (B + V) v.1 → R u) :
    wp G (MapOp.put k v).run (fun _ => R) s := by
  refine wp_bind (wp_touchdbMapPut_insert h.heap h.rep (.of_all hG) hr k.2 v.2 hk
    fun E K V a₁ a₂ a' u ix' hE hK hV hi hval hh => wp_pure ?_)
  have hVO : Owns a' V (v.1.strlen + 1) := hV.owns (by omega)
  have hVb := hi.value_notMem h.rep hE hK hV
  have hVle := hVO.bounds
  refine hQ E K V a₁ a₂ a' u ix' hE hK hV hi (h.insert hi hk (fun e he hne ⟨V', hV'⟩ =>
    ⟨V', hV'.other (hi.keeps he) hne⟩)
    ⟨V, .put hval (by omega) rfl hh fun _ => ⟨hVO, hVb⟩⟩) hh

theorem PutInv.wp_overwrite {G : Guard Stop Event} {R : Touchdb → Prop} (h : PutInv B kvs s a ix)
    (hG : ∀ e, G.emits e) (hr : Serves G a [v.1.strlen + 1]) (hk : ix.find k.1 = some e)
    (hQ : ∀ V a₁ a' u, Handed a (v.1.strlen + 1) V a₁ → Freed a₁ V a' →
      u.field (B + e.blk) MapEntry.val = ⟨.str, addrOf V⟩ →
      PutInv B (kvs ++ [(k, v)]) u a' ix → R u) :
    wp G (MapOp.put k v).run (fun _ => R) s := by
  have he := (Index.find_eq_some.mp hk).1
  obtain ⟨V', hV'⟩ := h.vals e he
  refine wp_bind (wp_touchdbMapPut_found h.heap h.rep (fun _ _ _ => hG _) hk ?_)
  refine wp_mapPutOverwrite_str h.heap h.rep he (.of_all hG) hr v.2 (by rw [hV'.val])
    fun V a₁ a' u hV hF ho hh => wp_pure (hQ V a₁ a' u hV hF ho.val ?_)
  have hb := (hV.owns (n := v.1.strlen + 1) (by omega)).bounds
  have hek := (Index.find_eq_some.mp hk).2
  exact h.overwrite hk ho (fun d hd hde hne ⟨V', hV'⟩ =>
    ⟨V', hV'.other (ho.keeps h.rep he hd hde) hne⟩) ⟨V, .put ho.val (by omega) hek.symm hh
      fun hon => absurd hon (History.not_once_append (h.mem_keys hk))⟩

theorem PutInv.step (h : PutInv B kvs s a ix) :
    Run.Post (fun e => e = .noBlock) ((MapOp.put k v).step s) fun t =>
      ∃ a ix, PutInv B (kvs ++ [(k, v)]) t a ix := by
  refine .of_wp (G := served) (P := fun _ t => ∃ a ix, PutInv B (kvs ++ [(k, v)]) t a ix) ?_
    (fun _ h => h) fun _ _ h => h
  rcases hfind : ix.find k.1 with _ | e
  · exact PutInv.wp_insert h (fun _ => trivial) (.of_stops rfl _ _) hfind
      fun _ _ _ _ _ a' _ ix' _ _ _ _ h' _ => ⟨a', ix', h'⟩
  · exact PutInv.wp_overwrite h (fun _ => trivial) (.of_stops rfl _ _) hfind
      fun _ _ a' _ _ _ _ h' => ⟨a', ix, h'⟩

theorem runPuts_inv (f : NewFiles) (kvs : Puts) :
    Run.Post (fun e => e = .noBlock) (runPuts f kvs) fun s => ∃ a ix, PutInv f.ptr kvs s a ix :=
  runNew_putsInv .put (fun _ _ _ _ _ _ h => PutInv.step h) kvs

/-- What `touchdb_get` returns for a key of the index. -/
theorem MapRep.get_ptr (hm : MapRep B s a ix) (h : Heap B s a) (he : e ∈ ix.entries)
    (hval : s.field (B + e.blk) MapEntry.val = ⟨.str, addrOf V⟩) (hV : V ≤ touchdbDefaultPoolSize) :
    ∃ l, touchdbGet e.key s = .ok (B + V, s, l) := by
  have hlt := poolSize_lt
  have hp : valuePtr B s e = B + V := valuePtr_eq hval (by omega)
  obtain ⟨p, t, l, hg, -, rfl, rfl⟩ := wp_ends (G := anyEvent)
    (Q := fun p t => t = s ∧ p = valuePtr B s e) (wp_touchdbMapGet_found h hm
      (fun _ _ _ => trivial) (Index.find_eq_some.mpr ⟨he, rfl⟩) ⟨rfl, rfl⟩) fun _ h => h
  exact ⟨l, hp ▸ hg⟩

/-- A key has the value of its last put, as long as no put follows its overwrite. -/
theorem PutInv.get (h : PutInv B kvs s a ix) (hl : kvs.last k = some v)
    (hc : kvs.Once k ∨ kvs.getLast? = some (k, v)) :
    ∃ p l, touchdbGet k.1 s = .ok (p, s, l) ∧ s.holds p v.1 := by
  obtain ⟨e, he, hek⟩ := List.mem_map.mp ((h.keys k).mpr (History.mem_keys_of_last hl))
  obtain ⟨V, hV⟩ := h.vals e he
  obtain ⟨l, hg⟩ := h.rep.get_ptr h.heap he hV.val hV.le
  refine ⟨_, l, hek ▸ hg, ?_⟩
  rcases hc with hc | hc
  · exact (hV.once k v hek.symm hl hc).2.2
  · exact hV.newest k v hek.symm hc

end Step

/-- A key has the value of its last put, if it was put only once, or if that put is the last
one of the run. -/
theorem get_lastPut (f : NewFiles) (kvs : Puts) (k v : Text) (hl : kvs.last k = some v)
    (hc : kvs.Once k ∨ kvs.getLast? = some (k, v)) :
    Run.Post (fun e => e = .noBlock) (runPuts f kvs) fun s =>
      ∃ p l, touchdbGet k.1 s = .ok (p, s, l) ∧ s.holds p v.1 :=
  (runPuts_inv f kvs).mono fun _ ⟨_, _, h⟩ => PutInv.get h hl hc

/-- A key that is put once keeps its value while another one is overwritten. -/
theorem get_lastPut_kept : ∃ s p l, runPuts .page [(text 1 97, text 1 120),
      (text 1 98, text 8 121), (text 1 98, text 8 122)] = .ok s ∧
    touchdbGet (text 1 97).1 s = .ok (p, s, l) ∧ s.holds p (text 1 120).1 := by
  obtain ⟨s, hs, -⟩ := runNew_ends .page [.put (text 1 97) (text 1 120),
    .put (text 1 98) (text 8 121), .put (text 1 98) (text 8 122)] (by decide)
  obtain ⟨p, l, h⟩ := (get_lastPut .page [(text 1 97, text 1 120), (text 1 98, text 8 121),
    (text 1 98, text 8 122)] (text 1 97) (text 1 120) (by decide) (.inl (by decide))).ok hs
  exact ⟨s, p, l, hs, h⟩

/-! Where a put follows an overwrite, it may be handed the block that the overwrite released. -/
section Reuse
variable {B : ℕ} {s : Touchdb} {a : PoolAlloc} {ix : Index} {e : MapNode} {kvs : Puts}
variable {k b v y z : Text}

/-- No block waits in a queue. -/
def NoFree (a : PoolAlloc) : Prop := ∀ i, a.queue i = []

theorem NoFree.handed {a' : PoolAlloc} {n o : ℕ} (h : NoFree a) (hh : Handed a n o a') :
    NoFree a' := fun i => by rw [hh.queue_of_nil (h _), h i]

/-- An overwrite where no block waits leaves the one block that it released. -/
theorem PutInv.overwrite_ends (h : PutInv B kvs s a ix) (hq : NoFree a) (hk : ix.find k.1 = some e)
    (hroom : a.cur + roomFor [v.1.strlen + 1] ≤ touchdbDefaultPoolSize) :
    ∃ t V a', (MapOp.put k v).step s = .ok t ∧ PutInv B (kvs ++ [(k, v)]) t a' ix ∧
      blkHdrSize < V ∧ V ≤ touchdbDefaultPoolSize ∧
      t.field (B + e.blk) MapEntry.val = ⟨.str, addrOf V⟩ ∧
      a'.cur ≤ a.cur + roomFor [v.1.strlen + 1] ∧
      a'.queue = Function.update (fun _ => []) (sizeClass (v.1.strlen + 1)) [V - blkHdrSize] := by
  have hw : wp anyEvent (MapOp.put k v).run (fun _ t => ∃ V a', PutInv B (kvs ++ [(k, v)]) t a' ix ∧
      blkHdrSize < V ∧ V ≤ touchdbDefaultPoolSize ∧
      t.field (B + e.blk) MapEntry.val = ⟨.str, addrOf V⟩ ∧
      a'.cur ≤ a.cur + roomFor [v.1.strlen + 1] ∧
      a'.queue = Function.update (fun _ => []) (sizeClass (v.1.strlen + 1)) [V - blkHdrSize]) s := by
    refine PutInv.wp_overwrite h (fun _ => trivial) (.of_room hroom) hk
      fun V a₁ a' u hV hF hval h' => ⟨V, a', h', ?_, ?_, hval, ?_, ?_⟩
    · exact (hV.owns (n := v.1.strlen + 1) (by omega)).bounds.1
    · have hb := (hV.owns (n := v.1.strlen + 1) (by omega)).bounds
      omega
    · rw [hF.cur_eq]
      exact hV.cur_le
    · have hnil : a₁.queue = fun _ => [] := funext (hq.handed hV)
      rw [hV.queue_of_freed hF, hnil]
      rfl
  obtain ⟨_, t, ht, V, a', h1⟩ := next_ends hw fun _ h => h
  exact ⟨t, V, a', ht, h1⟩

/-- A put on a new key where one block waits, in the class of the new value. -/
theorem PutInv.reuse (h : PutInv B kvs s a ix) {i x : ℕ} (hk : ix.find b.1 = none)
    (he : e ∈ ix.entries) (hq : a.queue = Function.update (fun _ => []) i [x])
    (hz : sizeClass (z.1.strlen + 1) = i) (hE : sizeClass mapEntrySize ≠ i)
    (hK : sizeClass (b.1.strlen + 1) ≠ i)
    (hroom : a.cur + roomFor (MapOp.put b z).sizes ≤ touchdbDefaultPoolSize) :
    ∃ t a' ix', (MapOp.put b z).step s = .ok t ∧ PutInv B (kvs ++ [(b, z)]) t a' ix' ∧
      e ∈ ix'.entries ∧ t.field (B + e.blk) MapEntry.val = s.field (B + e.blk) MapEntry.val ∧
      t.holds (B + (x + blkHdrSize)) z.1 := by
  have hw : wp anyEvent (MapOp.put b z).run (fun _ t => ∃ a' ix', PutInv B (kvs ++ [(b, z)]) t a' ix' ∧
      e ∈ ix'.entries ∧ t.field (B + e.blk) MapEntry.val = s.field (B + e.blk) MapEntry.val ∧
      t.holds (B + (x + blkHdrSize)) z.1) s := by
    refine PutInv.wp_insert h (fun _ => trivial) (.of_room hroom) hk
      fun E K V a₁ a₂ a' u ix' hEh hKh hVh hi h' hh => ⟨a', ix', h', ?_, hi.vals e he, ?_⟩
    · rw [hi.entries]
      exact List.mem_append_left _ he
    · -- the entry and the key are carved, so that the block still waits for the value
      have h1 : a₁.queue = a.queue := hEh.queue_of_nil (by rw [hq, Function.update_of_ne hE])
      have h2 : a₂.queue = a.queue :=
        (hKh.queue_of_nil (by rw [h1, hq, Function.update_of_ne hK])).trans h1
      have h3 : V = x + blkHdrSize :=
        hVh.eq_of_queue (q := []) (by rw [h2, hq, hz, Function.update_self])
      exact h3 ▸ hh
  obtain ⟨_, t, ht, a', ix', h1⟩ := next_ends hw fun _ h => h
  exact ⟨t, a', ix', ht, h1⟩

/-- The first put on a new store. -/
theorem PutInv.first_ends (f : NewFiles) (k v : Text)
    (hroom : newRoom + roomFor (MapOp.put k v).sizes ≤ touchdbDefaultPoolSize) :
    ∃ s t a ix, (touchdbNew f.ptr).next f.db = .ok s ∧ (MapOp.put k v).step s = .ok t ∧
      PutInv f.ptr [(k, v)] t a ix ∧ NoFree a ∧ a.cur ≤ newRoom + roomFor (MapOp.put k v).sizes := by
  have hnew : wp anyEvent (touchdbNew f.ptr) (fun _ s => ∃ a ix, PutInv f.ptr [] s a ix ∧ NoFree a ∧
      ix.entries = [] ∧ a.cur ≤ newRoom) f.db := by
    refine wp_touchdbNew (fun _ => trivial) (.of_room (Nat.le_trans (Nat.le_add_right _ _) hroom))
      fun tbl a u htbl hu hm => ⟨a, _, ⟨hu, hm, by simp [Index.empty, History.keys],
        by simp [Index.empty]⟩, ?_, rfl, htbl.cur_le⟩
    have hq : NoFree freshAlloc := fun _ => rfl
    exact hq.handed htbl
  obtain ⟨_, s, hs, a, ix, h, hq, hix, hcur⟩ := next_ends hnew fun _ h => h
  have hk : ix.find k.1 = none := Index.find_eq_none.mpr (by simp [hix])
  have hput : wp anyEvent (MapOp.put k v).run (fun _ t => ∃ a ix, PutInv f.ptr [(k, v)] t a ix ∧
      NoFree a ∧ a.cur ≤ newRoom + roomFor (MapOp.put k v).sizes) s := by
    have hserve : Serves anyEvent a (MapOp.put k v).sizes := .of_room (by omega)
    refine PutInv.wp_insert h (fun _ => trivial) hserve hk
      fun E K V a₁ a₂ a' u ix' hE hK hV _ h' _ =>
        ⟨a', ix', h', ((hq.handed hE).handed hK).handed hV, ?_⟩
    have h1 := hE.cur_le
    have h2 := hK.cur_le
    have h3 := hV.cur_le
    simp only [MapOp.sizes, roomFor, List.map_cons, List.map_nil, List.sum_cons, List.sum_nil]
    omega
  obtain ⟨_, t, ht, a', ix', h'⟩ := next_ends hput fun _ h => h
  exact ⟨s, t, a', ix', hs, ht, h'⟩

/-- A key that is overwritten by `y` before `b` gets a value of the same class reads the value
of `b`. -/
theorem runPuts_reuse (f : NewFiles) (k b x y z : Text) (hbk : b ≠ k)
    (hz : sizeClass (z.1.strlen + 1) = sizeClass (y.1.strlen + 1))
    (hE : sizeClass mapEntrySize ≠ sizeClass (y.1.strlen + 1))
    (hK : sizeClass (b.1.strlen + 1) ≠ sizeClass (y.1.strlen + 1))
    (hroom : newRoom + roomFor (MapOp.put k x).sizes + roomFor [y.1.strlen + 1] +
      roomFor (MapOp.put b z).sizes ≤ touchdbDefaultPoolSize) :
    ∃ s p l, runPuts f [(k, x), (k, y), (b, z)] = .ok s ∧ touchdbGet k.1 s = .ok (p, s, l) ∧
      s.holds p z.1 := by
  obtain ⟨s₀, s₁, a₁, ix, hs₀, hs₁, h₁, hq₁, hc₁⟩ := PutInv.first_ends f k x (by omega)
  obtain ⟨e, he, hek⟩ := List.mem_map.mp ((h₁.keys k).mpr (by simp [History.keys]))
  obtain ⟨s₂, V, a₂, hs₂, h₂, hV, hVle, hval, hc₂, hq₂⟩ := h₁.overwrite_ends (v := y) hq₁
    (Index.find_eq_some.mpr ⟨he, hek⟩) (by omega)
  have hb : ix.find b.1 = none := by
    refine Index.find_eq_none.mpr fun hc => ?_
    have hmem := (h₂.keys b).mp hc
    simp [History.keys, hbk] at hmem
  obtain ⟨s₃, a₃, ix', hs₃, h₃, he', hval', hh⟩ := h₂.reuse hb he hq₂ hz hE hK (by omega)
  obtain ⟨l, hg⟩ := h₃.rep.get_ptr h₃.heap he' (hval'.trans hval) hVle
  refine ⟨s₃, _, l, ?_, hek ▸ hg, ?_⟩
  · change ((touchdbNew f.ptr).next f.db >>= fun s =>
      Run.exec MapOp.step [.put k x, .put k y, .put b z] s) = _
    rw [hs₀]
    change Run.exec MapOp.step [.put k x, .put k y, .put b z] s₀ = _
    simp only [Run.exec, hs₁, hs₂, hs₃]
  · have hVx : V - blkHdrSize + blkHdrSize = V := Nat.sub_add_cancel (Nat.le_of_lt hV)
    rw [← hVx]
    exact hh

end Reuse

/-- A put on a key that has a value, then one on another key: the value is lost. -/
theorem get_lastPut_lost : ∃ s p l, runPuts .page [(text 1 97, text 1 120),
      (text 1 97, text 8 121), (text 1 98, text 8 122)] = .ok s ∧
    History.last [(text 1 97, text 1 120), (text 1 97, text 8 121), (text 1 98, text 8 122)]
      (text 1 97) = some (text 8 121) ∧
    touchdbGet (text 1 97).1 s = .ok (p, s, l) ∧ ¬ s.holds p (text 8 121).1 := by
  obtain ⟨s, p, l, hs, hg, hz⟩ := runPuts_reuse .page (text 1 97) (text 1 98) (text 1 120)
    (text 8 121) (text 8 122) (by decide) (by decide) (by decide) (by decide) (by decide)
  refine ⟨s, p, l, hs, by decide, hg, fun hy => ?_⟩
  have hbytes : (text 8 122).1.bytes = (text 8 121).1.bytes := hz.symm.trans hy
  exact absurd hbytes (by decide)

end TouchDb
