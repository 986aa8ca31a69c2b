import EnvirMonitor.Heap.Steps
import Mathlib.Logic.Relation

/-! Runs of a client of `mem.c` that allocates, writes, trims and releases in any order: its
blocks behave like separate arrays, and no free space is lost. -/

namespace EnvirMonitor.Heap
open Machine

/-- The heap, and what the client has stored behind each pointer that it holds. -/
structure MemSystem where
  heap : MemHeap
  held : ℕ → Option (List U8)

/-- The bytes that a request for `size` obtains. Sizes above 65532 obtain fewer than they ask for. -/
def granted (size : U16) : ℕ := min size.toNat (requestSize size)

theorem granted_eq {size : U16} (h : size.toNat ≤ 65532) : granted size = size.toNat :=
  min_eq_left (le_requestSize h)

inductive MemStep : MemSystem → MemSystem → Prop
  | malloc {s : MemSystem} {h : MemHeap} {p : ℕ} {size : U16}
      (hmalloc : memMalloc s.heap size = some (h, some p)) :
      MemStep s ⟨h, Function.update s.held p (some (bytesAt h.ram p (granted size)))⟩
  | refused {s : MemSystem} {h : MemHeap} {size : U16}
      (hmalloc : memMalloc s.heap size = some (h, none)) : MemStep s ⟨h, s.held⟩
  | write {s : MemSystem} {p i : ℕ} {data : List U8} {b : U8} (hheld : s.held p = some data)
      (hi : i < data.length) :
      MemStep s ⟨{ s.heap with ram := Function.update s.heap.ram (p + i) b },
        Function.update s.held p (some (data.set i b))⟩
  | trim {s : MemSystem} {h : MemHeap} {p q : ℕ} {data : List U8} {newsize : U16}
      (hheld : s.held p = some data) (htrim : memTrim s.heap p newsize = (h, some q)) :
      MemStep s ⟨h, Function.update s.held p (some (data.take (granted newsize)))⟩
  | trimRefused {s : MemSystem} {h : MemHeap} {p : ℕ} {data : List U8} {newsize : U16}
      (hheld : s.held p = some data) (htrim : memTrim s.heap p newsize = (h, none)) :
      MemStep s ⟨h, s.held⟩
  | free {s : MemSystem} {p : ℕ} {data : List U8} (hheld : s.held p = some data) :
      MemStep s ⟨memFree s.heap (some p), Function.update s.held p none⟩
  | freeNull {s : MemSystem} : MemStep s ⟨memFree s.heap none, s.held⟩

def memStart (ram : ℕ → U8) : MemSystem := ⟨memInitHeap ram, fun _ => none⟩

/-- The client finds in a block what it has stored there. -/
def Stored (held : ℕ → Option (List U8)) (ram : ℕ → U8) (r : Run) : Prop :=
  ∃ data, held (r.start + 8) = some data ∧ data.length + 8 ≤ r.len ∧
    bytesAt ram (r.start + 8) data.length = data

structure Owned (s : MemSystem) (bs : List Block) : Prop where
  tiles : Tiles s.heap bs
  block : ∀ p data, s.held p = some data → ∃ r ∈ usedRuns 0 bs, p = r.start + 8
  stored : ∀ r ∈ usedRuns 0 bs, Stored s.held s.heap.ram r

theorem memInitHeap_tiles (ram : ℕ → U8) : Tiles (memInitHeap ram) [⟨memSizeAligned, false⟩] := by
  have hfields : (memInitHeap ram).ram = setPrev (setNext (setUsed (setUsed (setPrev (setNext ram 0
    memSizeAligned) 0 0) 0 0) memSizeAligned 1) memSizeAligned memSizeAligned) memSizeAligned
      memSizeAligned := rfl
  have hheader : Header (memInitHeap ram).ram 0 memSizeAligned 0 false := by
    rw [hfields]
    refine ⟨?_, ?_, ?_⟩ <;>
      simp [memNext, memPrev, memUsed, wordAt, setPrev, setNext, setUsed, putWord, Function.update,
        memSizeAligned, low_high_eq]
  have hlast : memUsed (memInitHeap ram).ram memSizeAligned = 1 := by
    rw [hfields]
    simp [memUsed, setPrev, setNext, setUsed, putWord, memSizeAligned]
  refine ⟨⟨⟨hheader, trivial⟩, rfl, hlast, ?_⟩, rfl, List.isChain_singleton _⟩
  exact List.forall_mem_singleton.mpr ⟨by decide, by decide⟩

theorem memStart_owned (ram : ℕ → U8) : Owned (memStart ram) [⟨memSizeAligned, false⟩] :=
  ⟨memInitHeap_tiles ram, fun _ _ h => absurd h (by simp [memStart]),
    fun _ h => absurd h List.not_mem_nil⟩

/-! ## One step -/

theorem Owned.split {s : MemSystem} {bs : List Block} (h : Owned s bs) {p : ℕ} {data : List U8}
    (hp : s.held p = some data) : ∃ front n back, bs = front ++ ⟨n, true⟩ :: back ∧
      p = total front + 8 ∧ data.length + 8 ≤ n ∧ bytesAt s.heap.ram p data.length = data := by
  obtain ⟨r, hr, rfl⟩ := h.block p data hp
  obtain ⟨data', hdata', hlen, hbytes⟩ := h.stored r hr
  obtain rfl := Option.some.inj (hp.symm.trans hdata')
  obtain ⟨front, back, rfl, hstart⟩ := exists_of_mem_usedRuns hr
  rw [Nat.zero_add] at hstart
  exact ⟨front, r.len, back, rfl, by rw [hstart], hlen, hbytes⟩

theorem Stored.keeps {held held' : ℕ → Option (List U8)} {ram ram' : ℕ → U8} {r : Run}
    (h : Stored held ram r) (hheld : held' (r.start + 8) = held (r.start + 8))
    (hkeeps : Keeps ram ram' r) : Stored held' ram' r := by
  obtain ⟨data, hdata, hlen, hbytes⟩ := h
  refine ⟨data, hheld.trans hdata, hlen, ?_⟩
  rw [← hbytes]
  simp only [length_bytesAt]
  exact bytesAt_congr fun i hi hlt => hkeeps i hi (by omega)

theorem start_ne_of_around {front back : List Block} {b : Block}
    (hsized : Sized (front ++ b :: back)) {r : Run}
    (hr : r ∈ usedRuns 0 front ++ usedRuns (total front + b.size) back) : r.start ≠ total front := by
  obtain ⟨hfront, hback⟩ := sized_append.mp hsized
  have hb := hback b List.mem_cons_self
  rcases List.mem_append.mp hr with hr | hr
  · have := usedRuns_start_lt (fun c hc => by have := hfront c hc; omega) hr
    omega
  · have := usedRuns_inside hr
    omega

/-- A step that is about the block at `q` leaves the other blocks to the client. -/
theorem Owned.change {s : MemSystem} {bs bs' : List Block} {h' : MemHeap}
    {held' : ℕ → Option (List U8)} (h : Owned s bs) (ht : Tiles h' bs') (q : ℕ)
    (before old new after : List Run)
    (hold : usedRuns 0 bs = before ++ old ++ after) (hnew : usedRuns 0 bs' = before ++ new ++ after)
    (hq : ∀ r ∈ old, r.start = q) (hne : ∀ r ∈ before ++ after, r.start ≠ q)
    (hheld : ∀ p, p ≠ q + 8 → held' p = s.held p)
    (hkeeps : ∀ r ∈ before ++ after, Keeps s.heap.ram h'.ram r)
    (hblock : ∀ data, held' (q + 8) = some data → ∃ r ∈ new, q = r.start)
    (hstored : ∀ r ∈ new, Stored held' h'.ram r) : Owned ⟨h', held'⟩ bs' := by
  have hsub {runs : List Run} {r : Run} (hr : r ∈ before ++ after) : r ∈ before ++ runs ++ after := by
    simp only [List.mem_append] at hr ⊢
    tauto
  have hcases {runs : List Run} {r : Run} (hr : r ∈ before ++ runs ++ after) :
      r ∈ before ++ after ∨ r ∈ runs := by
    simp only [List.mem_append] at hr ⊢
    tauto
  refine ⟨ht, fun p data hp => ?_, fun r hr => ?_⟩
  · by_cases hpq : p = q + 8
    · rw [hpq] at hp
      obtain ⟨r, hr, hrq⟩ := hblock data hp
      refine ⟨r, ?_, by rw [hpq, hrq]⟩
      rw [hnew]
      simp [hr]
    · simp only [hheld p hpq] at hp
      obtain ⟨r, hr, hpr⟩ := h.block p data hp
      rw [hold] at hr
      rcases hcases hr with hr | hr
      · exact ⟨r, by rw [hnew]; exact hsub hr, hpr⟩
      · exact absurd (by rw [hpr, hq r hr]) hpq
  · rw [hnew] at hr
    rcases hcases hr with hr | hr
    · have hold' : r ∈ usedRuns 0 bs := by rw [hold]; exact hsub hr
      refine (h.stored r hold').keeps (hheld _ fun heq => hne r hr ?_) (hkeeps r hr)
      omega
    · exact hstored r hr

theorem Owned.malloc {s : MemSystem} {bs : List Block} (h : Owned s bs) {h' : MemHeap} {p : ℕ}
    {size : U16} (hmalloc : memMalloc s.heap size = some (h', some p)) :
    ∃ bs', Owned ⟨h', Function.update s.held p (some (bytesAt h'.ram p (granted size)))⟩ bs' := by
  rcases memMalloc_spec h.tiles size with
    ⟨hnone, -⟩ | ⟨front, n, back, h'', m, rfl, hm, hmn, hsome, ht, hlocal⟩
  · rw [hnone] at hmalloc
    simp at hmalloc
  rw [hmalloc] at hsome
  obtain ⟨rfl, hp⟩ := Prod.mk.inj (Option.some.inj hsome)
  obtain rfl := Option.some.inj hp
  have hreq : granted size ≤ requestSize size := min_le_right _ _
  have hend : total front + m + (n - m) = total front + n := by omega
  refine ⟨_, h.change ht (total front) (usedRuns 0 front) [] [⟨total front, m⟩]
    (usedRuns (total front + n) back) ?_ ?_ ?_ ?_ ?_ ?_ ?_ ?_⟩
  · simp
  · rw [usedRuns_append, usedRuns_used, usedRuns_holes, Nat.zero_add, hend, List.append_assoc]
    rfl
  · simp
  · exact fun r hr => start_ne_of_around h.tiles.tail.sized hr
  · exact fun p hp => Function.update_of_ne hp ..
  · exact fun r hr => hlocal.keeps hr
  · exact fun _ _ => ⟨_, List.mem_singleton_self _, rfl⟩
  · intro r hr
    obtain rfl := List.mem_singleton.mp hr
    refine ⟨_, Function.update_self .., ?_, ?_⟩
    · rw [length_bytesAt]
      simp only
      omega
    · rw [length_bytesAt]

theorem Owned.free {s : MemSystem} {bs : List Block} (h : Owned s bs) {p : ℕ} {data : List U8}
    (hheld : s.held p = some data) :
    ∃ bs', Owned ⟨memFree s.heap (some p), Function.update s.held p none⟩ bs' := by
  obtain ⟨front, n, back, rfl, rfl, -, -⟩ := h.split hheld
  obtain ⟨bs', ht, hruns, hkeeps⟩ := memFree_spec h.tiles
  refine ⟨bs', h.change ht (total front) (usedRuns 0 front) [⟨total front, n⟩] []
    (usedRuns (total front + n) back) ?_ ?_ ?_ ?_ ?_ ?_ ?_ ?_⟩
  · simp
  · simp [hruns]
  · exact fun r hr => by rw [List.mem_singleton.mp hr]
  · exact fun r hr => start_ne_of_around h.tiles.tail.sized hr
  · exact fun p hp => Function.update_of_ne hp ..
  · exact fun r hr => hkeeps r (by rwa [hruns])
  · simp
  · simp

theorem Owned.trim {s : MemSystem} {bs : List Block} (h : Owned s bs) {h' : MemHeap} {p q : ℕ}
    {data : List U8} {newsize : U16} (hheld : s.held p = some data)
    (htrim : memTrim s.heap p newsize = (h', some q)) :
    ∃ bs', Owned ⟨h', Function.update s.held p (some (data.take (granted newsize)))⟩ bs' := by
  obtain ⟨front, n, back, rfl, rfl, hlen, hbytes⟩ := h.split hheld
  rcases memTrim_spec h.tiles newsize with ⟨-, hnone⟩ | ⟨h'', hsome, hshrunk⟩
  · rw [hnone] at htrim
    simp at htrim
  rw [htrim] at hsome
  obtain ⟨rfl, -⟩ := Prod.mk.inj hsome
  obtain ⟨m, rest, hm, hmn, ht, hruns⟩ := hshrunk.tiles
  have hreq : granted newsize ≤ requestSize newsize := min_le_right _ _
  refine ⟨_, h.change ht (total front) (usedRuns 0 front) [⟨total front, n⟩] [⟨total front, m⟩]
    (usedRuns (total front + n) back) ?_ ?_ ?_ ?_ ?_ ?_ ?_ ?_⟩
  · simp
  · simp [hruns]
  · exact fun r hr => by rw [List.mem_singleton.mp hr]
  · exact fun r hr => start_ne_of_around h.tiles.tail.sized hr
  · exact fun p hp => Function.update_of_ne hp ..
  · exact hshrunk.others
  · exact fun _ _ => ⟨_, List.mem_singleton_self _, rfl⟩
  · intro r hr
    obtain rfl := List.mem_singleton.mp hr
    have hshort : (data.take (granted newsize)).length = min (granted newsize) data.length :=
      List.length_take
    have hsame : bytesAt h'.ram (total front + 8) (min (granted newsize) data.length) =
        bytesAt s.heap.ram (total front + 8) (min (granted newsize) data.length) :=
      bytesAt_congr fun i hi hlt => hshrunk.own i hi (by simp only; omega)
    refine ⟨_, Function.update_self .., by rw [hshort]; simp only; omega, ?_⟩
    rw [hshort, hsame, ← take_bytesAt, hbytes]

theorem Owned.write {s : MemSystem} {bs : List Block} (h : Owned s bs) {p i : ℕ} {data : List U8}
    {b : U8} (hheld : s.held p = some data) (hi : i < data.length) :
    ∃ bs', Owned ⟨{ s.heap with ram := Function.update s.heap.ram (p + i) b },
      Function.update s.held p (some (data.set i b))⟩ bs' := by
  obtain ⟨front, n, back, rfl, rfl, hlen, hbytes⟩ := h.split hheld
  have hkept {j : ℕ} (hj : j < total front + 8 ∨ total front + n ≤ j) :
      Function.update s.heap.ram (total front + 8 + i) b j = s.heap.ram j :=
    Function.update_of_ne (by omega) ..
  obtain ⟨-, -, hblock⟩ := tail_append.mp h.tiles.tail
  rw [Nat.zero_add] at hblock
  obtain ⟨hheader, hn, hback⟩ := tail_cons.mp hblock
  simp only at hheader hn hback
  have ht : Tiles { s.heap with ram := Function.update s.heap.ram (total front + 8 + i) b }
      (front ++ ⟨n, true⟩ :: back) := by
    refine ⟨h.tiles.tail.replace (fun j hj => hkept (Or.inl (by omega))) ?_, h.tiles.lfree,
      h.tiles.coalesced⟩
    rw [Nat.zero_add]
    exact tail_cons.mpr ⟨hheader.congr fun j hj hlt => hkept (Or.inl hlt), hn,
      hback.congr fun j hj => hkept (Or.inr hj)⟩
  refine ⟨_, h.change ht (total front) (usedRuns 0 front) [⟨total front, n⟩] [⟨total front, n⟩]
    (usedRuns (total front + n) back) ?_ ?_ ?_ ?_ ?_ ?_ ?_ ?_⟩
  · simp
  · simp
  · exact fun r hr => by rw [List.mem_singleton.mp hr]
  · exact fun r hr => start_ne_of_around h.tiles.tail.sized hr
  · exact fun p hp => Function.update_of_ne hp ..
  · intro r hr j hj hlt
    rcases List.mem_append.mp hr with hr | hr
    · have := usedRuns_inside hr
      exact hkept (Or.inl (by omega))
    · have := usedRuns_inside hr
      exact hkept (Or.inr (by omega))
  · exact fun _ _ => ⟨_, List.mem_singleton_self _, rfl⟩
  · intro r hr
    obtain rfl := List.mem_singleton.mp hr
    refine ⟨_, Function.update_self .., by rw [List.length_set]; exact hlen, ?_⟩
    rw [List.length_set, bytesAt_update hi, hbytes]

theorem refused_eq {h h' : MemHeap} {size : U16} {bs : List Block} (ht : Tiles h bs)
    (hmalloc : memMalloc h size = some (h', none)) : h' = h := by
  rcases memMalloc_spec ht size with ⟨hnone, -⟩ | ⟨_, _, _, _, _, -, -, -, hsome, -⟩
  · rw [hnone] at hmalloc
    exact (Prod.mk.inj (Option.some.inj hmalloc)).1.symm
  · rw [hsome] at hmalloc
    simp at hmalloc

theorem trimRefused_eq {s : MemSystem} {bs : List Block} (h : Owned s bs) {h' : MemHeap} {p : ℕ}
    {data : List U8} {newsize : U16} (hheld : s.held p = some data)
    (htrim : memTrim s.heap p newsize = (h', none)) : h' = s.heap := by
  obtain ⟨front, n, back, rfl, rfl, -, -⟩ := h.split hheld
  rcases memTrim_spec h.tiles newsize with ⟨-, hnone⟩ | ⟨h'', hsome, -⟩
  · rw [hnone] at htrim
    exact (Prod.mk.inj htrim).1.symm
  · rw [hsome] at htrim
    simp at htrim

theorem Owned.step {s s' : MemSystem} {bs : List Block} (h : Owned s bs) (hstep : MemStep s s') :
    ∃ bs', Owned s' bs' := by
  cases hstep with
  | malloc hmalloc => exact h.malloc hmalloc
  | refused hmalloc =>
    obtain rfl := refused_eq h.tiles hmalloc
    exact ⟨bs, h⟩
  | write hheld hi => exact h.write hheld hi
  | trim hheld htrim => exact h.trim hheld htrim
  | trimRefused hheld htrim =>
    obtain rfl := trimRefused_eq h hheld htrim
    exact ⟨bs, h⟩
  | free hheld => exact h.free hheld
  | freeNull => exact ⟨bs, h⟩

/-! ## Runs -/

def MemReachable (s : MemSystem) : Prop :=
  ∃ ram, Relation.ReflTransGen MemStep (memStart ram) s

theorem MemReachable.owned {s : MemSystem} (h : MemReachable s) : ∃ bs, Owned s bs := by
  obtain ⟨ram, hrun⟩ := h
  induction hrun with
  | refl => exact ⟨_, memStart_owned ram⟩
  | tail _ hstep ih =>
    obtain ⟨bs, howned⟩ := ih
    exact howned.step hstep

/-- The client's blocks are its own: aligned, within the heap, without a byte in common, and
each holds what was last stored there. -/
structure SeparateArrays (s : MemSystem) : Prop where
  stored : ∀ p data, s.held p = some data → bytesAt s.heap.ram p data.length = data
  aligned : ∀ p data, s.held p = some data → 4 ∣ p
  inside : ∀ p data, s.held p = some data → 8 ≤ p ∧ p + data.length ≤ memSizeAligned
  apart : ∀ p data q data', s.held p = some data → s.held q = some data' → p ≠ q →
    Run.Apart ⟨p, data.length⟩ ⟨q, data'.length⟩

theorem dvd_total {bs : List Block} (h : Sized bs) : 4 ∣ total bs := by
  induction bs with
  | nil => exact dvd_zero 4
  | cons b bs ih =>
    obtain ⟨hb, hbs⟩ := List.forall_mem_cons.mp h
    rw [total_cons]
    exact dvd_add hb.2 (ih hbs)

theorem Owned.separate {s : MemSystem} {bs : List Block} (h : Owned s bs) : SeparateArrays s := by
  have htotal := h.tiles.tail.total
  have hlong (p : ℕ) (data : List U8) (hp : s.held p = some data) : ∃ r ∈ usedRuns 0 bs,
      p = r.start + 8 ∧ data.length + 8 ≤ r.len := by
    obtain ⟨r, hr, rfl⟩ := h.block p data hp
    obtain ⟨data', hdata', hlen, -⟩ := h.stored r hr
    obtain rfl := Option.some.inj (hp.symm.trans hdata')
    exact ⟨r, hr, rfl, hlen⟩
  refine ⟨fun p data hp => ?_, fun p data hp => ?_, fun p data hp => ?_,
    fun p data q data' hp hq hne => ?_⟩
  · obtain ⟨front, n, back, -, -, -, hbytes⟩ := h.split hp
    exact hbytes
  · obtain ⟨front, n, back, rfl, rfl, -, -⟩ := h.split hp
    exact dvd_add (dvd_total (sized_append.mp h.tiles.tail.sized).1) (by decide)
  · obtain ⟨r, hr, rfl, hlen⟩ := hlong p data hp
    have := usedRuns_inside hr
    omega
  · obtain ⟨r, hr, rfl, hlen⟩ := hlong p data hp
    obtain ⟨r', hr', rfl, hlen'⟩ := hlong q data' hq
    have hapart := usedRuns_apart hr hr' fun heq => hne (by rw [heq])
    simp only [Run.Apart] at hapart ⊢
    omega

def sampleHeap : MemHeap := ⟨takeBlock (memInitHeap fun _ => 0).ram 0 12, 20⟩

def sampleTaken : MemSystem :=
  ⟨sampleHeap, Function.update (fun _ => none) 8 (some (bytesAt sampleHeap.ram 8 10))⟩

theorem sample_step : MemStep (memStart fun _ => 0) sampleTaken :=
  @MemStep.malloc _ _ _ 10 rfl

theorem sample_second : ∃ h, memMalloc sampleHeap 4 = some (h, some 28) ∧
    bytesAt h.ram 28 4 = [0, 0, 0, 0] := by
  have hres : (memMalloc sampleHeap 4).map (fun r => (r.2, bytesAt r.1.ram 28 4)) =
      some (some 28, [0, 0, 0, 0]) := by decide +kernel
  obtain ⟨⟨h, q⟩, hmalloc, hr⟩ := Option.map_eq_some_iff.mp hres
  obtain ⟨rfl, hbytes⟩ := Prod.mk.inj hr
  exact ⟨h, hmalloc, hbytes⟩

def sampleTwo (h : MemHeap) : MemSystem := ⟨h, Function.update sampleTaken.held 28 (some [0, 0, 0, 0])⟩

def FreeBytes (bs : List Block) (n : ℕ) : Prop :=
  ∃ start, start + n ≤ memSizeAligned ∧ ∀ r ∈ usedRuns 0 bs, Run.Apart r ⟨start, n⟩

theorem freeBytes_iff {h : MemHeap} {bs : List Block} (ht : Tiles h bs) {n : ℕ} (hn : 0 < n) :
    FreeBytes bs n ↔ ∃ b ∈ bs, b.used = false ∧ n ≤ b.size := by
  have htotal := ht.tail.total
  constructor
  · rintro ⟨start, hend, hapart⟩
    exact exists_hole_of_apart ht.coalesced (fun b hb => by have := ht.tail.sized b hb; omega)
      (r := ⟨start, n⟩) hn ⟨Nat.zero_le _, by simp only; omega⟩ hapart
  · rintro ⟨⟨s, used⟩, hb, rfl, hs⟩
    obtain ⟨front, back, rfl⟩ := List.append_of_mem hb
    simp only [total_append, total_cons] at htotal hs
    refine ⟨total front, by omega, fun r hr => ?_⟩
    rw [usedRuns_append, usedRuns_hole] at hr
    rcases List.mem_append.mp hr with hr | hr
    · have := usedRuns_inside hr
      exact Or.inl (by simp only; omega)
    · have := usedRuns_inside hr
      exact Or.inr (by simp only; omega)

/-- What `mem_malloc` answers in a state: a block that is large enough for every size up to 65532,
and none only when the aligned request and its struct fit between no two blocks. -/
structure Answers (s : MemSystem) (bs : List Block) (size : U16) : Prop where
  returns : ∃ h res, memMalloc s.heap size = some (h, res)
  none_iff : memMalloc s.heap size = some (s.heap, none) ↔
    size = 0 ∨ ¬ FreeBytes bs (requestSize size + sizeofStructMem)
  room_iff : ∀ h p, memMalloc s.heap size = some (h, some p) → ∃ bs', Tiles h bs' ∧
    ∃ r ∈ usedRuns 0 bs', p = r.start + sizeofStructMem ∧
      (size.toNat + sizeofStructMem ≤ r.len ↔ size.toNat ≤ 65532)

theorem mem_malloc_answers {s : MemSystem} (h : MemReachable s) :
    ∃ bs, Owned s bs ∧ ∀ size, Answers s bs size := by
  obtain ⟨bs, howned⟩ := h.owned
  refine ⟨bs, howned, fun size => ?_⟩
  have hfree := freeBytes_iff howned.tiles (n := requestSize size + sizeofStructMem)
    (Nat.add_pos_right _ (by decide))
  have htotal := howned.tiles.tail.total
  rcases memMalloc_spec howned.tiles size with
    ⟨hnone, hwhy⟩ | ⟨front, n, back, h', m, rfl, hm, hmn, hsome, ht, -⟩
  · refine ⟨⟨_, _, hnone⟩, iff_of_true hnone ?_, fun h p hp => ?_⟩
    · refine hwhy.imp_right fun hall => ?_
      rw [hfree]
      rintro ⟨b, hb, hunused, hfit⟩
      rcases hall b hb with hused | hsmall
      · rw [hunused] at hused
        exact Bool.false_ne_true hused
      · exact absurd hfit (Nat.not_le.mpr hsmall)
    · rw [hnone] at hp
      simp at hp
  · simp only [total_append, total_cons, memSizeAligned] at htotal
    have hfits : FreeBytes (front ++ ⟨n, false⟩ :: back) (requestSize size + sizeofStructMem) :=
      hfree.mpr ⟨⟨n, false⟩, by simp, rfl, hm.trans hmn⟩
    refine ⟨⟨_, _, hsome⟩, iff_of_false ?_ ?_, fun h p hp => ?_⟩
    · rw [hsome]
      simp
    · rintro (hzero | hno)
      · rw [memMalloc, if_pos hzero] at hsome
        simp at hsome
      · exact hno hfits
    · rw [hsome] at hp
      obtain ⟨rfl, hptr⟩ := Prod.mk.inj (Option.some.inj hp)
      obtain rfl := Option.some.inj hptr
      refine ⟨_, ht, ⟨total front, m⟩, by simp, rfl, fun hroom => ?_, fun hsize => ?_⟩
      · simp only [sizeofStructMem] at hroom
        omega
      · have := le_requestSize hsize
        simp only [sizeofStructMem]
        omega

theorem mem_malloc_answers_sample : ∃ bs, Owned sampleTaken bs ∧ ∀ size, Answers sampleTaken bs size :=
  mem_malloc_answers ⟨fun _ => 0, .single sample_step⟩

/-- When the client holds nothing the heap is whole again: holes never stay apart. -/
theorem heap_whole {s : MemSystem} (h : MemReachable s) (hnone : ∀ p, s.held p = none) :
    Tiles s.heap [⟨memSizeAligned, false⟩] ∧ ∀ size, size ≠ 0 → requestSize size ≤ 10232 →
      ∃ h', memMalloc s.heap size = some (h', some sizeofStructMem) := by
  obtain ⟨bs, howned⟩ := h.owned
  have hruns : usedRuns 0 bs = [] := by
    rw [List.eq_nil_iff_forall_not_mem]
    intro r hr
    obtain ⟨data, hdata, -⟩ := howned.stored r hr
    rw [hnone] at hdata
    simp at hdata
  have htotal := howned.tiles.tail.total
  rw [Nat.zero_add] at htotal
  have hbs := eq_hole_of_coalesced howned.tiles.coalesced ((usedRuns_eq_nil_iff 0 bs).mp hruns)
    (by rw [htotal]; decide)
  rw [htotal] at hbs
  subst hbs
  refine ⟨howned.tiles, fun size hzero hsize => ?_⟩
  rcases memMalloc_spec howned.tiles size with
    ⟨-, hwhy⟩ | ⟨front, n, back, h', m, hbs, -, -, hsome, -⟩
  · rcases hwhy with hwhy | hwhy
    · exact absurd hwhy hzero
    · have := hwhy _ List.mem_cons_self
      simp only [Bool.false_eq_true, false_or, memSizeAligned] at this
      omega
  · rcases front with _ | ⟨b, front⟩
    · exact ⟨h', hsome⟩
    · have hlength := congrArg List.length hbs
      simp at hlength

def sampleFreed : MemSystem := ⟨memFree sampleHeap (some 8), Function.update sampleTaken.held 8 none⟩

theorem heap_whole_sample : Tiles sampleFreed.heap [⟨memSizeAligned, false⟩] ∧
    ∀ size, size ≠ 0 → requestSize size ≤ 10232 →
      ∃ h', memMalloc sampleFreed.heap size = some (h', some sizeofStructMem) :=
  heap_whole ⟨fun _ => 0, .tail (.single sample_step) (.free rfl)⟩ fun p => by
    simp only [sampleFreed, sampleTaken, Function.update_apply]
    split_ifs <;> rfl

end EnvirMonitor.Heap
