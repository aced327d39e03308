import MEADcast.Header
import Mathlib.Data.List.Basic
import Mathlib.Data.List.Range
import Mathlib.Algebra.BigOperators.Group.List.Basic
import Mathlib.Algebra.Order.Ring.Nat
import Mathlib.Tactic.Common

/-!
# Segments of a data header

The address list of a data header is a sequence of segments: the address of a router,
marked in the bitmaps, and behind it the endpoints that this router serves.  The sender
builds such headers and the routers take them apart, so that what follows is shared.

## Main definitions

* `Seg` — a router with its endpoints.
* `dataHdr` — the header of a list of segments.
* `MdcHdr.receivers` — the addresses at positions that are not marked.
* `MdcHdr.segs`, `MdcHdr.pending` — the segments of a header with their positions, and those
  of them that are still to be delivered.

## Main results

* `receivers_dataHdr` — the receivers of a header are the endpoints of its segments.
* `segs_dataHdr` — taking the header of a list of segments apart gives these segments.
-/

namespace MEADcast

/-- A router with the leaves that are reached through it. -/
structure Seg (α β : Type*) where
  router : α
  leaves : List β
  deriving DecidableEq, Repr

variable {α β γ δ : Type*}

/-- The number of positions of an address list: each segment has one for its router. -/
def Seg.size (s : Seg α β) : ℕ := s.leaves.length + 1

/-- Rename routers and leaves. -/
def Seg.map (f : α → γ) (g : β → δ) (s : Seg α β) : Seg γ δ := ⟨f s.router, s.leaves.map g⟩

@[simp] theorem Seg.map_router (f : α → γ) (g : β → δ) (s : Seg α β) :
    (s.map f g).router = f s.router := rfl

@[simp] theorem Seg.map_leaves (f : α → γ) (g : β → δ) (s : Seg α β) :
    (s.map f g).leaves = s.leaves.map g := rfl

/-- The number of positions of a list of segments. -/
def segSize (g : List (Seg α β)) : ℕ := (g.map Seg.size).sum

@[simp] theorem segSize_nil : segSize ([] : List (Seg α β)) = 0 := rfl

@[simp] theorem segSize_cons (s : Seg α β) (g : List (Seg α β)) :
    segSize (s :: g) = s.leaves.length + 1 + segSize g := by
  simp [segSize, Seg.size]

@[simp] theorem segSize_append (g g' : List (Seg α β)) :
    segSize (g ++ g') = segSize g + segSize g' := by
  simp [segSize]

@[simp] theorem segSize_map (f : α → γ) (k : β → δ) (g : List (Seg α β)) :
    segSize (g.map (Seg.map f k)) = segSize g := by
  induction g with
  | nil => rfl
  | cons s g ih => simp [ih]

/-- The addresses in order. -/
def segAddrs (g : List (Seg α α)) : List α := g.flatMap fun s => s.router :: s.leaves

@[simp] theorem segAddrs_nil : segAddrs ([] : List (Seg α α)) = [] := rfl

@[simp] theorem segAddrs_cons (s : Seg α α) (g : List (Seg α α)) :
    segAddrs (s :: g) = s.router :: (s.leaves ++ segAddrs g) := by
  simp [segAddrs]

@[simp] theorem segAddrs_append (g g' : List (Seg α α)) :
    segAddrs (g ++ g') = segAddrs g ++ segAddrs g' := by
  simp [segAddrs]

@[simp] theorem length_segAddrs (g : List (Seg α α)) : (segAddrs g).length = segSize g := by
  induction g with
  | nil => rfl
  | cons s g ih =>
      simp [ih]
      omega

@[simp] theorem segAddrs_map (f : α → γ) (g : List (Seg α α)) :
    segAddrs (g.map (Seg.map f f)) = (segAddrs g).map f := by
  induction g with
  | nil => rfl
  | cons s g ih => simp [ih]

/-! ## Bitmaps -/

/-- The bitmap with the bit of position `i` alone; the most significant bit is position
`0`. -/
def posBit (i : ℕ) : BitVec 32 := 1#32 <<< (31 - i)

theorem getMsbD_posBit {i j : ℕ} (hi : i < 32) (hj : j < 32) :
    (posBit i).getMsbD j = decide (j = i) := by
  simp only [posBit, BitVec.getMsbD, BitVec.getLsbD_shiftLeft, BitVec.getLsbD_one]
  rw [Bool.eq_iff_iff]
  simp only [Bool.and_eq_true, decide_eq_true_eq, Bool.not_eq_true', decide_eq_false_iff_not]
  omega

theorem getMsbD_posBit_eq {i : ℕ} (hi : i < 32) (j : ℕ) :
    (posBit i).getMsbD j = decide (j = i) := by
  by_cases hj : j < 32
  · exact getMsbD_posBit hi hj
  · have hne : j ≠ i := by omega
    simp [BitVec.getMsbD, hj, hne]

/-- The bitmap of a list of segments whose first position is `i`. -/
def segBitmap : ℕ → List (Seg α β) → BitVec 32
  | _, [] => 0
  | i, s :: g => posBit i ||| segBitmap (i + s.size) g

/-- The positions of the routers of a list of segments whose first position is `i`. -/
def segStarts : ℕ → List (Seg α β) → List ℕ
  | _, [] => []
  | i, s :: g => i :: segStarts (i + s.size) g

theorem segBitmap_concat (g : List (Seg α β)) (s : Seg α β) (i : ℕ) :
    segBitmap i (g ++ [s]) = segBitmap i g ||| posBit (i + segSize g) := by
  induction g generalizing i with
  | nil => simp [segBitmap]
  | cons t g ih =>
      simp only [List.cons_append, segBitmap, ih, segSize_cons, Seg.size, BitVec.or_assoc]
      congr 3
      omega

@[simp] theorem segBitmap_map (f : α → γ) (k : β → δ) (g : List (Seg α β)) (i : ℕ) :
    segBitmap i (g.map (Seg.map f k)) = segBitmap i g := by
  induction g generalizing i with
  | nil => rfl
  | cons s g ih => simp [segBitmap, ih, Seg.size]

theorem le_of_mem_segStarts {g : List (Seg α β)} {i j : ℕ} (h : j ∈ segStarts i g) : i ≤ j := by
  induction g generalizing i with
  | nil => simp [segStarts] at h
  | cons s g ih =>
      rcases List.mem_cons.mp h with rfl | h
      · exact le_rfl
      · have := ih h
        omega

/-- The bits of the bitmap are the positions of the routers. -/
theorem getMsbD_segBitmap {g : List (Seg α β)} {i j : ℕ} (hg : i + segSize g ≤ 32) (hj : j < 32) :
    (segBitmap i g).getMsbD j = decide (j ∈ segStarts i g) := by
  induction g generalizing i with
  | nil => simp [segBitmap, segStarts]
  | cons s g ih =>
      simp only [segSize_cons] at hg
      rw [segBitmap, BitVec.getMsbD_or, getMsbD_posBit (by omega) hj,
        ih (by simp only [Seg.size]; omega)]
      simp [segStarts]

/-! ## Headers -/

/-- The data header of a list of segments. -/
def dataHdr (g : List (Seg In6Addr In6Addr)) : MdcHdr :=
  setDataHdr (segAddrs g) (segSize g) (segBitmap 0 g)

/-- Only the first addresses of the buffer enter the header. -/
theorem setDataHdr_eq {l : List In6Addr} {g : List (Seg In6Addr In6Addr)} {bm : BitVec 32}
    (hl : l.take (segSize g) = segAddrs g) (hbm : bm = segBitmap 0 g) :
    setDataHdr l (segSize g) bm = dataHdr g := by
  subst hbm
  rw [dataHdr, setDataHdr, setDataHdr, hl, List.take_of_length_le (by simp)]

/-- The addresses at positions below `dsts` that are not marked as routers. -/
def MdcHdr.receivers (hd : MdcHdr) : List In6Addr :=
  ((hd.addr.take hd.dsts.toNat).zipIdx.filter fun p => !hd.rtm.getMsbD p.2).map Prod.fst

theorem filter_zipIdx_segAddrs {p : ℕ → Bool} (g : List (Seg α α)) (i : ℕ)
    (hp : ∀ j, i ≤ j → j < i + segSize g → p j = decide (j ∈ segStarts i g)) :
    (((segAddrs g).zipIdx i).filter fun q => !p q.2).map Prod.fst =
      g.flatMap Seg.leaves := by
  induction g generalizing i with
  | nil => rfl
  | cons s g ih =>
      simp only [segSize_cons] at hp
      have h0 : p i = true := by simp [hp i le_rfl (by omega), segStarts]
      have hls : ∀ q ∈ s.leaves.zipIdx (i + 1), (!p q.2) = true := by
        rintro ⟨a, j⟩ hq
        obtain ⟨h1, h2, -⟩ := List.mem_zipIdx hq
        have hj : j ∉ segStarts i (s :: g) := by
          simp only [segStarts, List.mem_cons, not_or]
          refine ⟨by omega, fun hm => ?_⟩
          have := le_of_mem_segStarts hm
          simp only [Seg.size] at this
          omega
        simp [hp j (by omega) (by omega), hj]
      have htl := ih (i + s.size) fun j h1 h2 => by
        simp only [Seg.size] at h1 h2
        rw [hp j (by omega) (by omega)]
        refine decide_eq_decide.mpr ?_
        have : j ≠ i := by omega
        simp [segStarts, this, Seg.size]
      simp only [segAddrs_cons, List.zipIdx_cons, List.zipIdx_append, List.filter_cons, h0,
        Bool.not_true, Bool.false_eq_true, if_false, List.filter_append, List.map_append,
        List.flatMap_cons, List.filter_eq_self.mpr hls]
      congr 1
      · simp
      · have hi : i + 1 + s.leaves.length = i + s.size := by
          simp only [Seg.size]
          omega
        rw [hi]
        exact htl

/-- The receivers of a header are the endpoints of its segments. -/
theorem receivers_dataHdr {g : List (Seg In6Addr In6Addr)} (hg : segSize g ≤ 32) :
    (dataHdr g).receivers = g.flatMap Seg.leaves := by
  have hd : (BitVec.ofNat 8 (segSize g)).toNat = segSize g := by
    rw [BitVec.toNat_ofNat]
    omega
  have ht : (dataHdr g).addr.take (dataHdr g).dsts.toNat = segAddrs g := by
    simp only [dataHdr, setDataHdr, hd, List.take_take, min_self]
    exact List.take_of_length_le (by simp)
  rw [MdcHdr.receivers, ht]
  exact filter_zipIdx_segAddrs g 0 fun j _ hj =>
    getMsbD_segBitmap (by omega) (by omega)

/-! ## Taking an address list apart -/

/-- The addresses in front of the first marked position, and the segments behind it with
their positions. -/
def splitSegs (rt : ℕ → Bool) : ℕ → List α → List α × List (ℕ × Seg α α)
  | _, [] => ([], [])
  | i, a :: l =>
      let p := splitSegs rt (i + 1) l
      if rt i then ([], (i, ⟨a, p.1⟩) :: p.2) else (a :: p.1, p.2)

/-- The segments `g` stand one behind the other from position `i` on, and exactly their
first positions are marked. -/
def SegsAt (rt : ℕ → Bool) : ℕ → List (ℕ × Seg α α) → Prop
  | _, [] => True
  | i, p :: g => p.1 = i ∧ rt i = true ∧ (∀ j, i < j → j < i + p.2.size → rt j = false) ∧
      SegsAt rt (i + p.2.size) g

section Split

variable {rt : ℕ → Bool}

theorem splitSegs_addrs (rt : ℕ → Bool) (l : List α) (i : ℕ) :
    (splitSegs rt i l).1 ++ segAddrs ((splitSegs rt i l).2.map Prod.snd) = l := by
  induction l generalizing i with
  | nil => rfl
  | cons a l ih =>
      have := ih (i + 1)
      by_cases h : rt i
      · simpa [splitSegs, h] using this
      · simpa [splitSegs, h] using this

theorem splitSegs_at (rt : ℕ → Bool) (l : List α) (i : ℕ) :
    (∀ j, i ≤ j → j < i + (splitSegs rt i l).1.length → rt j = false) ∧
      SegsAt rt (i + (splitSegs rt i l).1.length) (splitSegs rt i l).2 := by
  induction l generalizing i with
  | nil => exact ⟨fun j h1 h2 => by simp [splitSegs] at h2; omega, trivial⟩
  | cons a l ih =>
      obtain ⟨h1, h2⟩ := ih (i + 1)
      by_cases h : rt i
      · simp only [splitSegs, h, if_true, List.length_nil, Nat.add_zero]
        refine ⟨fun j h3 h4 => by omega, rfl, h, fun j h3 h4 => h1 j h3 ?_, ?_⟩
        · simp only [Seg.size] at h4
          omega
        · have hi : i + (⟨a, (splitSegs rt (i + 1) l).1⟩ : Seg α α).size =
              i + 1 + (splitSegs rt (i + 1) l).1.length := by
            simp only [Seg.size]
            omega
          rw [hi]
          exact h2
      · have hf : rt i = false := by simpa using h
        simp only [splitSegs, hf, Bool.false_eq_true, if_false, List.length_cons]
        have hi : i + ((splitSegs rt (i + 1) l).1.length + 1) =
            i + 1 + (splitSegs rt (i + 1) l).1.length := by omega
        rw [hi]
        refine ⟨fun j h3 h4 => ?_, h2⟩
        by_cases hj : j = i
        · rw [hj, hf]
        · exact h1 j (by omega) h4

theorem SegsAt.le {g : List (ℕ × Seg α α)} {i : ℕ} (H : SegsAt rt i g) {p : ℕ × Seg α α}
    (hp : p ∈ g) : i ≤ p.1 ∧ p.1 + p.2.size ≤ i + segSize (g.map Prod.snd) := by
  induction g generalizing i with
  | nil => cases hp
  | cons q g ih =>
      obtain ⟨hq, -, -, Hg⟩ := H
      simp only [List.map_cons, segSize_cons]
      rcases List.mem_cons.mp hp with rfl | hp
      · simp only [Seg.size]
        omega
      · have := ih Hg hp
        simp only [Seg.size] at this ⊢
        omega

theorem SegsAt.marked {g : List (ℕ × Seg α α)} {i : ℕ} (H : SegsAt rt i g) {p : ℕ × Seg α α}
    (hp : p ∈ g) : rt p.1 = true ∧ ∀ j, p.1 < j → j < p.1 + p.2.size → rt j = false := by
  induction g generalizing i with
  | nil => cases hp
  | cons q g ih =>
      obtain ⟨rfl, h1, h2, Hg⟩ := H
      rcases List.mem_cons.mp hp with rfl | hp
      · exact ⟨h1, h2⟩
      · exact ih Hg hp

/-- Every marked position is the first one of a segment. -/
theorem SegsAt.exists_seg {g : List (ℕ × Seg α α)} {i j : ℕ} (H : SegsAt rt i g) (hij : i ≤ j)
    (hj : j < i + segSize (g.map Prod.snd)) (hr : rt j = true) : ∃ p ∈ g, p.1 = j := by
  induction g generalizing i with
  | nil => simp at hj; omega
  | cons q g ih =>
      obtain ⟨hq, -, h2, Hg⟩ := H
      by_cases he : j = i
      · exact ⟨q, List.mem_cons_self, by omega⟩
      · by_cases hlt : j < i + q.2.size
        · simp [h2 j (by omega) hlt] at hr
        · simp only [List.map_cons, segSize_cons] at hj
          simp only [Seg.size] at hlt
          obtain ⟨p, hp, hpj⟩ := ih Hg (by simp only [Seg.size]; omega)
            (by simp only [Seg.size]; omega)
          exact ⟨p, List.mem_cons_of_mem _ hp, hpj⟩

/-- The addresses of a segment stand behind its position. -/
theorem SegsAt.getElem? {g : List (ℕ × Seg α α)} {i : ℕ} (H : SegsAt rt i g) {p : ℕ × Seg α α}
    (hp : p ∈ g) {k : ℕ} (hk : k < p.2.size) :
    (segAddrs (g.map Prod.snd))[p.1 - i + k]? = (p.2.router :: p.2.leaves)[k]? := by
  induction g generalizing i with
  | nil => cases hp
  | cons q g ih =>
      obtain ⟨hq, -, -, Hg⟩ := H
      rw [List.map_cons, segAddrs_cons, ← List.cons_append]
      rcases List.mem_cons.mp hp with rfl | hp
      · rw [hq, Nat.sub_self, Nat.zero_add, List.getElem?_append_left]
        simpa [Seg.size] using hk
      · have hle := (Hg.le hp).1
        simp only [Seg.size] at hle
        rw [List.getElem?_append_right (by simp only [List.length_cons]; omega), ← ih Hg hp]
        congr 1
        simp only [List.length_cons, Seg.size]
        omega

/-- Segments that stand one behind the other are found again. -/
theorem splitSegs_of_segsAt {g : List (ℕ × Seg α α)} {i : ℕ} (H : SegsAt rt i g) :
    splitSegs rt i (segAddrs (g.map Prod.snd)) = ([], g) := by
  induction g generalizing i with
  | nil => rfl
  | cons q g ih =>
      obtain ⟨hq, h1, h2, Hg⟩ := H
      have hls : ∀ (ls : List α) (k : ℕ), k + ls.length = i + q.2.size →
          (∀ j, k ≤ j → j < i + q.2.size → rt j = false) →
          splitSegs rt k (ls ++ segAddrs (g.map Prod.snd)) = (ls, g) := by
        intro ls
        induction ls with
        | nil =>
            intro k hk _
            rw [List.nil_append, show k = i + q.2.size by simpa using hk]
            exact ih Hg
        | cons a ls ihl =>
            intro k hk hf
            simp only [List.length_cons] at hk
            rw [List.cons_append, splitSegs, ihl (k + 1) (by omega)
              fun j h3 h4 => hf j (by omega) h4, hf k le_rfl (by omega)]
            rfl
      rw [List.map_cons, segAddrs_cons, splitSegs,
        hls q.2.leaves (i + 1) (by simp only [Seg.size]; omega) fun j h3 h4 => h2 j h3 h4, h1]
      simp [← hq]

end Split

/-- The segments of a header with their positions. -/
def MdcHdr.segs (hd : MdcHdr) : List (ℕ × Seg In6Addr In6Addr) :=
  (splitSegs hd.rtm.getMsbD 0 (hd.addr.take hd.dsts.toNat)).2

/-- The segments whose router is still to be reached. -/
def MdcHdr.pending (hd : MdcHdr) : List (ℕ × Seg In6Addr In6Addr) :=
  hd.segs.filter fun p => hd.dlvm.getMsbD p.1

/-- The positions and segments of a list of segments whose first position is `i`. -/
def segPos : ℕ → List (Seg α β) → List (ℕ × Seg α β)
  | _, [] => []
  | i, s :: g => (i, s) :: segPos (i + s.size) g

@[simp] theorem map_snd_segPos (g : List (Seg α β)) (i : ℕ) : (segPos i g).map Prod.snd = g := by
  induction g generalizing i with
  | nil => rfl
  | cons s g ih => simp [segPos, ih]

theorem segsAt_segPos {rt : ℕ → Bool} (g : List (Seg α α)) (i : ℕ)
    (hrt : ∀ j, i ≤ j → j < i + segSize g → rt j = decide (j ∈ segStarts i g)) :
    SegsAt rt i (segPos i g) := by
  induction g generalizing i with
  | nil => trivial
  | cons s g ih =>
      simp only [segSize_cons] at hrt
      refine ⟨rfl, ?_, fun j h1 h2 => ?_, ih _ fun j h1 h2 => ?_⟩
      · rw [hrt i le_rfl (by omega)]
        simp [segStarts]
      · simp only [Seg.size] at h2
        rw [hrt j (by omega) (by omega), decide_eq_false_iff_not, segStarts, List.mem_cons, not_or]
        refine ⟨by omega, fun hm => ?_⟩
        have := le_of_mem_segStarts hm
        simp only [Seg.size] at this
        omega
      · simp only [Seg.size] at h1 h2
        have hne : j ≠ i := by omega
        rw [hrt j (by omega) (by omega)]
        refine decide_eq_decide.mpr ?_
        simp [segStarts, hne, Seg.size]

/-- Taking the header of a list of segments apart gives these segments, all of them still to
be delivered. -/
theorem segs_dataHdr {g : List (Seg In6Addr In6Addr)} (hg : segSize g ≤ 32) :
    (dataHdr g).segs = segPos 0 g ∧ (dataHdr g).pending = segPos 0 g := by
  have hd : (BitVec.ofNat 8 (segSize g)).toNat = segSize g := by
    rw [BitVec.toNat_ofNat]
    omega
  have ht : (dataHdr g).addr.take (dataHdr g).dsts.toNat = segAddrs g := by
    simp only [dataHdr, setDataHdr, hd, List.take_take, min_self]
    exact List.take_of_length_le (by simp)
  have hat : SegsAt (segBitmap 0 g).getMsbD 0 (segPos 0 g) :=
    segsAt_segPos g 0 fun j _ hj => getMsbD_segBitmap (by omega) (by omega)
  have hs : (dataHdr g).segs = segPos 0 g := by
    have := splitSegs_of_segsAt hat
    rw [map_snd_segPos] at this
    rw [MdcHdr.segs, ht]
    exact congrArg Prod.snd this
  refine ⟨hs, ?_⟩
  rw [MdcHdr.pending, hs]
  exact List.filter_eq_self.mpr fun p hp => (hat.marked hp).1

end MEADcast
