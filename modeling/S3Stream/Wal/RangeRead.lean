import S3Stream.Wal.Reader
import S3Stream.Wal.HandOff

/-! # Range reads

`get_range` over a bucket that any number of writers change, with the epoch index that earlier
calls left behind. -/

namespace S3Stream

open List OrdMap TransitionSystem
open Cluster (newOwner oldOwner)

/-! ## The epoch index -/

/-- The first object of its epoch. -/
def WalObject.FirstIn (os : List WalObject) (o : WalObject) : Prop :=
  o ∈ os ∧ ∀ x ∈ os, x.epoch = o.epoch → o.startOffset ≤ x.startOffset

/-- The map holds the first object of every epoch; of two that start together, the newer one. -/
structure Indexes (os : List WalObject) (m : OrdMap Nat Nat) : Prop where
  first : ∀ x ∈ m, ∃ o : WalObject, o.FirstIn os ∧ o.startOffset = x.1 ∧ o.epoch = x.2
  mem : ∀ o : WalObject, o.FirstIn os → ∃ e, (o.startOffset, e) ∈ m ∧ o.epoch ≤ e

namespace Indexes

variable {os : List WalObject} {m : OrdMap Nat Nat} {x o : WalObject}

/-- Behind objects in order, an object is the first of an epoch only if the epoch is new. -/
theorem firstIn_append (hle : ∀ o ∈ os, o.Le x) (ho : o.FirstIn os) : o.FirstIn (os ++ [x]) := by
  refine ⟨mem_append_left _ ho.1,
    forall_mem_append.mpr ⟨ho.2, forall_mem_singleton.mpr fun hepoch => ?_⟩⟩
  have := hle o ho.1
  unfold WalObject.Le at this
  omega

theorem firstIn_of_append (ho : o.FirstIn (os ++ [x])) (hmem : o ∈ os) : o.FirstIn os :=
  ⟨hmem, fun y hy => ho.2 y (mem_append_left _ hy)⟩

theorem append_same (h : Indexes os m) (hle : ∀ o ∈ os, o.Le x) (hl : l ∈ os)
    (hepoch : l.epoch = x.epoch) : Indexes (os ++ [x]) m := by
  constructor
  · intro y hy
    obtain ⟨o, ho, heq⟩ := h.first y hy
    exact ⟨o, firstIn_append hle ho, heq⟩
  · intro o ho
    rcases mem_append.mp ho.1 with hmem | hmem
    · exact h.mem o (firstIn_of_append ho hmem)
    · obtain rfl := mem_singleton.mp hmem
      -- If it is a first object at all, then together with the last one.
      have hlo := hle l hl
      have hol := ho.2 l (mem_append_left _ hl) hepoch
      unfold WalObject.Le at hlo
      have hstart : l.startOffset = o.startOffset := by omega
      have hfirst : l.FirstIn os := by
        refine ⟨hl, fun y hy hye => ?_⟩
        have := ho.2 y (mem_append_left _ hy) (hye.trans hepoch)
        omega
      rw [← hstart, ← hepoch]
      exact h.mem l hfirst

theorem append_new (h : Indexes os m) (hle : ∀ o ∈ os, o.Le x)
    (hlt : ∀ o ∈ os, o.epoch < x.epoch) :
    Indexes (os ++ [x]) (m.insert x.startOffset x.epoch) := by
  constructor
  · intro y hy
    rcases eq_or_mem_of_mem_insert hy with rfl | hy
    · refine ⟨x, ⟨mem_append_right _ (mem_singleton.mpr rfl), ?_⟩, rfl, rfl⟩
      exact forall_mem_append.mpr
        ⟨fun z hz hepoch => absurd hepoch (hlt z hz).ne, forall_mem_singleton.mpr fun _ => le_rfl⟩
    · obtain ⟨o, ho, heq⟩ := h.first y hy
      exact ⟨o, firstIn_append hle ho, heq⟩
  · intro o ho
    rcases mem_append.mp ho.1 with hmem | hmem
    · obtain ⟨e, he, hoe⟩ := h.mem o (firstIn_of_append ho hmem)
      by_cases hkey : o.startOffset = x.startOffset
      · exact ⟨x.epoch, hkey ▸ mem_insert_self, (hlt o hmem).le⟩
      · exact ⟨e, mem_insert_of_ne he hkey, hoe⟩
    · obtain rfl := mem_singleton.mp hmem
      exact ⟨o.epoch, mem_insert_self, le_refl _⟩

end Indexes

theorem le_getLast {os : List WalObject} (hsorted : os.Pairwise WalObject.Le)
    (hl : os.getLast? = some l) : ∀ o ∈ os, o.Le l := by
  intro o ho
  obtain ⟨front, hfront⟩ := getLast?_eq_some_iff.mp hl
  rw [hfront] at ho hsorted
  rcases mem_append.mp ho with ho | ho
  · exact (pairwise_append.mp hsorted).2.2 o ho l (mem_singleton.mpr rfl)
  · obtain rfl := mem_singleton.mp ho
    exact .inr ⟨rfl, le_refl _⟩

theorem indexes_startOffsetToEpoch (hsorted : os.Pairwise WalObject.Le) :
    Indexes os (startOffsetToEpoch os) := by
  -- The fold also knows the epoch of the last object.
  suffices hfold : ∃ m, os.foldl (fun (acc : OrdMap Nat Nat × Option Nat) object =>
      if acc.2 ≠ some object.epoch then
        (acc.1.insert object.startOffset object.epoch, some object.epoch)
      else acc) (empty, none) = (m, os.getLast?.map WalObject.epoch) ∧ Indexes os m by
    obtain ⟨m, heq, h⟩ := hfold
    rw [startOffsetToEpoch, heq]
    exact h
  induction os using reverseRecOn with
  | nil =>
    refine ⟨empty, rfl, fun x hx => absurd hx (not_mem_empty x), fun o ho => ?_⟩
    cases ho.1
  | append_singleton os x ih =>
    obtain ⟨hos, -, hle⟩ := pairwise_append.mp hsorted
    replace hle : ∀ o ∈ os, o.Le x := fun o ho => hle o ho x (mem_singleton.mpr rfl)
    obtain ⟨m, heq, h⟩ := ih hos
    rw [foldl_append, heq, foldl_cons, foldl_nil, getLast?_concat, Option.map_some]
    by_cases hsame : os.getLast?.map WalObject.epoch = some x.epoch
    · obtain ⟨l, hl, hepoch⟩ := Option.map_eq_some_iff.mp hsame
      refine ⟨m, by simp [hsame], ?_⟩
      exact h.append_same hle (mem_of_getLast? hl) hepoch
    · refine ⟨m.insert x.startOffset x.epoch, by simp [hsame], h.append_new hle fun o ho => ?_⟩
      obtain ⟨l, hl⟩ := Option.isSome_iff_exists.mp
        (getLast?_isSome.mpr (ne_nil_of_mem ho))
      have hne : l.epoch ≠ x.epoch := fun heq => hsame (by rw [hl, Option.map_some, heq])
      have hlx := hle l (mem_of_getLast? hl)
      have hol := le_getLast hos hl o ho
      unfold WalObject.Le at hlx hol
      omega

/-- Of the first objects of the epochs, the last one at or below `offset` is of epoch `epoch`. -/
def Names (files : List WalFile) (offset epoch : Nat) : Prop :=
  ∃ g ∈ files, (∀ x ∈ files, x.epoch = g.epoch → g.startOffset ≤ x.startOffset) ∧
    g.epoch = epoch ∧ g.startOffset ≤ offset ∧
    ∀ h ∈ files, (∀ x ∈ files, x.epoch = h.epoch → h.startOffset ≤ x.startOffset) →
      h.startOffset ≤ offset → h.startOffset < g.startOffset ∨
        h.startOffset = g.startOffset ∧ h.epoch ≤ epoch

instance (files : List WalFile) (offset epoch : Nat) : Decidable (Names files offset epoch) := by
  unfold Names
  infer_instance

/-- The files of a bucket as the reader lists them. -/
def listedObjects (root : Key) (files : List WalFile) : List WalObject :=
  (files.insertionSort WalFile.Le).map (WalFile.toWalObject root)

theorem mem_listedObjects : o ∈ listedObjects root files ↔ ∃ f ∈ files, f.toWalObject root = o := by
  simp [listedObjects]

theorem Names.floor? (h : Names files offset epoch) (root : Key) :
    ∃ k, (startOffsetToEpoch (listedObjects root files)).floor? offset =
      some (k, epoch) := by
  obtain ⟨g, hg, hfirst, rfl, hle, hmax⟩ := h
  have hindex : Indexes (listedObjects root files)
      (startOffsetToEpoch (listedObjects root files)) :=
    indexes_startOffsetToEpoch
      (pairwise_map.mpr (pairwise_insertionSort WalFile.Le files))
  have hg' : (g.toWalObject root).FirstIn (listedObjects root files) := by
    refine ⟨mem_listedObjects.mpr ⟨g, hg, rfl⟩, fun x hx hepoch => ?_⟩
    obtain ⟨y, hy, rfl⟩ := mem_listedObjects.mp hx
    exact hfirst y hy hepoch
  obtain ⟨e, he, hge⟩ := hindex.mem _ hg'
  obtain ⟨⟨k, e'⟩, hfloor⟩ := OrdMap.exists_floor? he hle
  have hmem := OrdMap.mem_filter.mp (OrdMap.mem_of_last? hfloor)
  have hk : k ≤ offset := of_decide_eq_true hmem.2
  have hgk := OrdMap.le_of_last? hfloor (OrdMap.mem_filter.mpr ⟨he, decide_eq_true hle⟩)
  obtain ⟨o, ho, hok, hoe⟩ := hindex.first _ hmem.1
  obtain ⟨y, hy, rfl⟩ := mem_listedObjects.mp ho.1
  simp only [WalFile.toWalObject] at hgk hok hoe hge he
  have hyk := hmax y hy (fun x hx hepoch => ho.2 _ (mem_listedObjects.mpr ⟨x, hx, rfl⟩) hepoch)
    (hok ▸ hk)
  -- The floor entry starts with `g`, and the entry at that key is the newest epoch there.
  have hkg : k = g.startOffset := by omega
  have hee : e = e' := by
    have h₁ := OrdMap.get?_of_mem he
    have h₂ := OrdMap.get?_of_mem hmem.1
    rw [← hkg, h₂] at h₁
    exact (Option.some.inj h₁).symm
  refine ⟨k, ?_⟩
  rw [hfloor]
  have : e' = g.epoch := by omega
  rw [this]

/-! ## The reads of a range -/

namespace WalReader

variable {root : Key} {stop next : Nat} {fs : List WalFile} {m : OrdMap Nat Nat}

/-- The windows of `fs` follow each other from the one `next` is in up to `stop`. -/
def Ahead (stop : Nat) : Nat → List WalFile → Prop
  | next, [] => stop ≤ next
  | next, f :: fs => f.Aligned ∧ f.startOffset ≤ next ∧ next < f.endOffset ∧ next < stop ∧
      Ahead stop f.endOffset fs

/-- The index finds the epoch of every window. -/
def Named (m : OrdMap Nat Nat) : Nat → List WalFile → Prop
  | _, [] => True
  | next, f :: fs => (∃ k, m.floor? next = some (k, f.epoch)) ∧ Named m f.endOffset fs

def fileReads (root : Key) : Nat → List WalFile → List Read
  | _, [] => []
  | next, f :: fs =>
    ⟨next, f.key root, next - f.startOffset + walHeaderSizeV1⟩ :: fileReads root f.endOffset fs

theorem Ahead.start_eq {f : WalFile} (hf : f.Aligned) (h : Ahead stop f.endOffset (g :: fs)) :
    g.startOffset = f.endOffset := by
  obtain ⟨hg, hle, hlt, -⟩ := h
  have hdvd : dataFileAlignSize ∣ f.endOffset := by
    rw [hf.2]
    exact dvd_add hf.1 (dvd_refl _)
  have hpos : f.endOffset < f.endOffset + dataFileAlignSize := by
    simp only [dataFileAlignSize]
    omega
  rw [← floorAlignOffset_eq hg.1 hle (hg.2 ▸ hlt), floorAlignOffset_eq hdvd (le_refl _) hpos]

theorem Ahead.sum_le (h : Ahead stop next (f :: fs)) :
    f.startOffset + dataFileAlignSize * (fs.length + 1) ≤ stop + dataFileAlignSize := by
  induction fs generalizing f next with
  | nil =>
    obtain ⟨-, hle, -, hlt, -⟩ := h
    simp only [length_nil]
    omega
  | cons g fs ih =>
    obtain ⟨hf, -, -, -, hrest⟩ := h
    have hsum := ih hrest
    rw [Ahead.start_eq hf hrest, hf.2] at hsum
    simp only [length_cons, Nat.mul_add] at hsum ⊢
    omega

theorem Ahead.length_le (h : Ahead stop next fs) : fs.length ≤ stop / dataFileAlignSize + 1 := by
  cases fs with
  | nil => exact Nat.zero_le _
  | cons f fs =>
    have hsum := h.sum_le
    have hpos : 0 < dataFileAlignSize := by decide
    have hle : dataFileAlignSize * fs.length ≤ stop := by
      rw [Nat.mul_add] at hsum
      omega
    have := (Nat.le_div_iff_mul_le hpos).mpr (Nat.mul_comm .. ▸ hle)
    simp only [length_cons]
    omega

theorem epochReads_done (h : ¬ (next < epochEnd ∧ next < stop)) :
    epochReads root epoch epochEnd stop fuel next = ([], next) := by
  cases fuel with
  | zero => rfl
  | succ => rw [epochReads, if_neg h]

theorem epochReads_window {f : WalFile} (fuel : Nat) (hf : f.Aligned) (hlo : f.startOffset ≤ next)
    (hhi : next < f.endOffset) (hend : next < epochEnd) (hstop : next < stop) :
    epochReads root f.epoch epochEnd stop (fuel + 1) next =
      (⟨next, f.key root, next - f.startOffset + walHeaderSizeV1⟩ ::
          (epochReads root f.epoch epochEnd stop fuel f.endOffset).1,
        (epochReads root f.epoch epochEnd stop fuel f.endOffset).2) := by
  rw [epochReads, if_pos ⟨hend, hstop⟩]
  simp only [floorAlignOffset_eq hf.1 hlo (hf.2 ▸ hhi), genObjectPathV1Aligned, ← hf.2]
  rfl

theorem rangeReads_done (h : stop ≤ next) (es : List (Nat × Nat)) :
    rangeReads root stop es next = [] := by
  have hdone : ∀ {epoch epochEnd fuel},
      epochReads root epoch epochEnd stop fuel next = ([], next) := by
    intro epoch epochEnd fuel
    exact epochReads_done (by omega)
  induction es with
  | nil => rfl
  | cons x es ih =>
    cases es with
    | nil => rw [rangeReads, hdone]
    | cons => rw [rangeReads, hdone, nil_append, ih]

/-- The reads of one epoch are those of a front part of the windows; behind it the range or the
epoch ends. -/
theorem epochReads_ahead (root : Key) (h : Ahead stop next fs) (hnamed : Named m next fs)
    (hfuel : fs.length ≤ fuel)
    (hepoch : ∀ o, next ≤ o → o < epochEnd → o < stop → ∀ x, m.floor? o = some x → x.2 = epoch) :
    ∃ fs₂ next', fileReads root next fs =
        (epochReads root epoch epochEnd stop fuel next).1 ++ fileReads root next' fs₂ ∧
      (epochReads root epoch epochEnd stop fuel next).2 = next' ∧ next ≤ next' ∧
      Ahead stop next' fs₂ ∧ Named m next' fs₂ ∧ (fs₂ = [] ∨ epochEnd ≤ next') := by
  induction fs generalizing next fuel with
  | nil =>
    rw [epochReads_done fun hc => absurd hc.2 (not_lt.mpr h)]
    exact ⟨[], next, rfl, rfl, le_refl _, h, hnamed, .inl rfl⟩
  | cons f fs ih =>
    obtain ⟨⟨k, hfloor⟩, hrest⟩ := hnamed
    have hahead := h
    obtain ⟨ha, hlo, hhi, hlt, hnext⟩ := h
    cases fuel with
    | zero => simp at hfuel
    | succ fuel =>
      by_cases hend : next < epochEnd
      · obtain rfl : f.epoch = epoch := hepoch next (le_refl _) hend hlt _ hfloor
        obtain ⟨fs₂, next', hreads, hnext', hle, hrest'⟩ := ih hnext hrest
          (Nat.le_of_succ_le_succ hfuel) fun o ho => hepoch o (hhi.le.trans ho)
        rw [epochReads_window fuel ha hlo hhi hend hlt, fileReads, hreads]
        exact ⟨fs₂, next', rfl, hnext', hhi.le.trans hle, hrest'⟩
      · rw [epochReads_done fun hc => hend hc.1]
        exact ⟨f :: fs, next, rfl, rfl, le_refl _, hahead, ⟨⟨k, hfloor⟩, hrest⟩,
          .inr (not_lt.mp hend)⟩

theorem snd_of_floor? (hk : (k, e) ∈ m) (hko : k ≤ o) (hgap : ∀ x ∈ m, k < x.1 → o < x.1)
    (hx : m.floor? o = some x) : x.2 = e := by
  have hmem := OrdMap.mem_filter.mp (OrdMap.mem_of_last? hx)
  have hxo : x.1 ≤ o := of_decide_eq_true hmem.2
  have hkx := OrdMap.le_of_last? hx (OrdMap.mem_filter.mpr ⟨hk, decide_eq_true hko⟩)
  have hxk : x.1 = k := by
    by_contra hne
    have := hgap x hmem.1 (lt_of_le_of_ne hkx (Ne.symm hne))
    omega
  have h₁ := OrdMap.get?_of_mem hk
  have h₂ : m.get? x.1 = some x.2 := OrdMap.get?_of_mem hmem.1
  rw [hxk, h₁] at h₂
  exact (Option.some.inj h₂).symm

theorem rangeReads_ahead (root : Key) (h : Ahead stop next fs) (hnamed : Named m next fs)
    (hstop : stop < 2 ^ 64) (hk : k ≤ next) (hsub : ∀ x ∈ (k, e) :: es, x ∈ m)
    (hsorted : ((k, e) :: es).Pairwise fun x y => x.1 < y.1)
    (hall : ∀ x ∈ m, k ≤ x.1 → x.1 < stop → x ∈ (k, e) :: es) :
    rangeReads root stop ((k, e) :: es) next = fileReads root next fs := by
  induction es generalizing k e next fs with
  | nil =>
    have hepoch : ∀ o, next ≤ o → o < 2 ^ 64 - 1 → o < stop → ∀ x, m.floor? o = some x →
        x.2 = e := by
      intro o ho _ hos x hx
      refine snd_of_floor? (hsub _ mem_cons_self) (hk.trans ho) (fun y hy hlt => ?_) hx
      by_contra hle
      have := mem_singleton.mp (hall y hy hlt.le (by omega))
      rw [this] at hlt
      exact lt_irrefl _ hlt
    obtain ⟨fs₂, next', hreads, -, -, hahead, -, hend⟩ :=
      epochReads_ahead root h hnamed h.length_le hepoch
    have hnil : fs₂ = [] := by
      rcases hend with hnil | hend
      · exact hnil
      · cases fs₂ with
        | nil => rfl
        | cons =>
          obtain ⟨-, -, -, hlt, -⟩ := hahead
          omega
    rw [hreads, hnil, fileReads, append_nil]
    rfl
  | cons y es ih =>
    obtain ⟨k', e'⟩ := y
    obtain ⟨hhead, htail⟩ := pairwise_cons.mp hsorted
    have hkk : k < k' := hhead _ mem_cons_self
    have hmem : ∀ x ∈ m, k < x.1 → x.1 < stop → x ∈ (k', e') :: es := by
      intro x hx hlt hxs
      refine (mem_cons.mp (hall x hx hlt.le hxs)).resolve_left ?_
      rintro rfl
      exact lt_irrefl _ hlt
    have hepoch : ∀ o, next ≤ o → o < k' → o < stop → ∀ x, m.floor? o = some x → x.2 = e := by
      intro o ho hok hos x hx
      refine snd_of_floor? (hsub _ mem_cons_self) (hk.trans ho) (fun y hy hlt => ?_) hx
      by_contra hle
      rcases mem_cons.mp (hmem y hy hlt (by omega)) with rfl | hes
      · omega
      · have := (pairwise_cons.mp htail).1 y hes
        omega
    obtain ⟨fs₂, next', hreads, hnext', -, hahead, hnamed', hend⟩ :=
      epochReads_ahead root h hnamed h.length_le hepoch
    rw [hreads, rangeReads, hnext']
    congr 1
    rcases hend with rfl | hge
    · exact rangeReads_done hahead _
    · refine ih hahead hnamed' hge (fun x hx => hsub x (mem_cons_of_mem _ hx)) htail ?_
      intro x hx hle hxs
      exact hmem x hx (hkk.trans_le hle) hxs

/-! ## The records of a range -/

/-- The records of `[start, stop)` among the entries, without the trim records. -/
def userRecords (start stop : Nat) (es : List WalEntry) : List StreamRecordBatch :=
  (es.filter fun e => start ≤ e.offset ∧ e.offset < stop ∧ ¬ isTriggerTrimRecord e.record).map
    WalEntry.record

variable {s : Storage} {start : Nat} {es : List WalEntry} {f : WalFile}

theorem userRecords_append (es es' : List WalEntry) :
    userRecords start stop (es ++ es') =
      userRecords start stop es ++ userRecords start stop es' := by
  simp only [userRecords, filter_append, map_append]

theorem userRecords_eq_nil (h : ∀ e ∈ es, e.offset < start ∨ stop ≤ e.offset) :
    userRecords start stop es = [] := by
  rw [userRecords, map_eq_nil_iff, filter_eq_nil_iff]
  intro e he hc
  have hin := of_decide_eq_true hc
  have := h e he
  omega

theorem decodeRecords_entries (stop : Nat)
    (ht : Windows.Tiles WalEntry.offset WalEntry.stop next es hi) (hstart : start ≤ next)
    (hr : ∀ e ∈ es, e.record.InRange) (hfuel : es.length ≤ fuel) :
    decodeRecords stop fuel next (es.flatMap WalEntry.frame) =
      .ok (userRecords start stop es) := by
  induction es generalizing next fuel with
  | nil => cases fuel <;> rfl
  | cons e es ih =>
    cases fuel with
    | zero => simp at hfuel
    | succ fuel =>
      have hbounds := fun x hx => (ht.bounds (x := x) hx).1
      obtain ⟨rfl, hlt, hrest⟩ := ht
      by_cases hstop : e.offset < stop
      · have hne : ¬ ((e :: es).flatMap WalEntry.frame).isEmpty := by
          have := WalEntry.length_le_flatMap_frame (e :: es)
          intro hempty
          rw [isEmpty_iff.mp hempty] at this
          simp at this
        have hdecode := e.decodeRecord_frame (hr e mem_cons_self) (es.flatMap WalEntry.frame)
        have hconsumed : e.offset + ((e.frame ++ es.flatMap WalEntry.frame).length -
            (es.flatMap WalEntry.frame).length) = e.stop := by
          rw [length_append, e.length_frame, Nat.add_sub_cancel]
          rfl
        rw [decodeRecords, if_pos ⟨hne, hstop⟩, flatMap_cons, hdecode]
        change (decodeRecords stop fuel (e.offset + _) _ >>= _) = _
        rw [hconsumed, ih hrest (hstart.trans hlt.le)
          (fun x hx => hr x (mem_cons_of_mem e hx)) (Nat.le_of_succ_le_succ hfuel)]
        change Except.ok _ = _
        congr 1
        cases htrim : isTriggerTrimRecord e.record with
        | true => simp [userRecords, htrim]
        | false => simp [userRecords, htrim, hstart, hstop]
      · rw [decodeRecords, if_neg fun hc => hstop hc.2, userRecords_eq_nil fun x hx => .inr ?_]
        exact (not_lt.mp hstop).trans (hbounds x hx)

/-- An entry of the file starts at `next`, and those before it lie below `start`. -/
def StartsAt (start next : Nat) (f : WalFile) : Prop :=
  ∃ front e back, f.entries = front ++ e :: back ∧ e.offset = next ∧ ∀ x ∈ front, x.offset < start

theorem startsAt_startOffset (hf : f.Valid) (start : Nat) : StartsAt start f.startOffset f := by
  obtain ⟨e, back, hentries⟩ := exists_cons_of_ne_nil hf.entries_ne_nil
  obtain ⟨hi, ht, -⟩ := hf.tiles
  rw [hentries] at ht
  exact ⟨[], e, back, hentries, ht.1, nofun⟩

theorem startsAt_entry (hf : f.Valid) (he : e ∈ f.entries) : StartsAt e.offset e.offset f := by
  obtain ⟨front, back, hsplit⟩ := append_of_mem he
  refine ⟨front, e, back, hsplit, rfl, fun x hx => ?_⟩
  obtain ⟨hi, ht, -⟩ := hf.tiles
  rw [hsplit] at ht
  have hstop := (pairwise_append.mp ht.pairwise).2.2 x hx e mem_cons_self
  have hpos := ht.lo_lt_hi (mem_append_left _ hx)
  omega

theorem readRecords_file (stop : Nat) (hf : f.Valid) (hs : s.lookup (f.key root) = some f.payload)
    (hat : StartsAt start next f) (hstart : start ≤ next) :
    readRecords s stop ⟨next, f.key root, next - f.startOffset + walHeaderSizeV1⟩ =
      .ok (userRecords start stop f.entries) := by
  obtain ⟨front, e, back, hsplit, rfl, hfront⟩ := hat
  obtain ⟨hi, ht, hle⟩ := hf.tiles
  rw [hsplit] at ht
  obtain ⟨mid, -, hback⟩ := Windows.Tiles.append.mp ht
  have hmid : e.offset = mid := hback.1
  have hread : s.rangeRead (f.key root) (e.offset - f.startOffset + walHeaderSizeV1) none =
      .ok ((e :: back).flatMap WalEntry.frame) := by
    rw [Storage.rangeRead_of_lookup hs, Option.getD_none, ← length_drop, take_length,
      hf.drop_payload hsplit]
  have hdecode := decodeRecords_entries stop (hmid ▸ hback) hstart
    (fun x hx => hf.inRange x (hsplit ▸ mem_append_right _ hx))
    (WalEntry.length_le_flatMap_frame (e :: back))
  rw [readRecords, hread, hsplit, userRecords_append,
    userRecords_eq_nil fun x hx => .inl (hfront x hx), nil_append]
  exact hdecode

theorem mapM_readRecords (hahead : Ahead stop next fs) (hstart : start ≤ next)
    (hat : ∀ g, fs.head? = some g → StartsAt start next g) (hvalid : ∀ f ∈ fs, f.Valid)
    (hs : ∀ f ∈ fs, s.lookup (f.key root) = some f.payload) :
    ∃ ls, (fileReads root next fs).mapM (readRecords s stop) = .ok ls ∧
      ls.flatten = userRecords start stop (fs.flatMap WalFile.entries) := by
  induction fs generalizing next with
  | nil => exact ⟨[], rfl, rfl⟩
  | cons f fs ih =>
    obtain ⟨hf, -, hhi, -, hrest⟩ := hahead
    have hread := readRecords_file stop (hvalid f mem_cons_self)
      (hs f mem_cons_self) (hat f rfl) hstart
    -- The windows behind the first one are read from their first entry on.
    have hat' : ∀ g, fs.head? = some g → StartsAt start f.endOffset g := by
      intro g hg
      obtain ⟨gs, rfl⟩ := head?_eq_some_iff.mp hg
      rw [← Ahead.start_eq hf hrest]
      exact startsAt_startOffset (hvalid g (by simp)) start
    obtain ⟨ls, hls, hflat⟩ := ih hrest (hstart.trans hhi.le) hat'
      (fun g hg => hvalid g (mem_cons_of_mem f hg))
      (fun g hg => hs g (mem_cons_of_mem f hg))
    refine ⟨userRecords start stop f.entries :: ls, ?_, ?_⟩
    · rw [fileReads, mapM_cons, hread]
      rw [hls]
      rfl
    · rw [flatten_cons, hflat, flatMap_cons, userRecords_append]

theorem readRange_files (hahead : Ahead b.offset a.offset (f :: fs))
    (hnamed : Named index.map a.offset (f :: fs)) (hb : b.offset < 2 ^ 64)
    (hvalid : ∀ g ∈ f :: fs, g.Valid) (hs : ∀ g ∈ f :: fs, s.lookup (g.key root) = some g.payload)
    (he : e ∈ f.entries) (hoffset : e.offset = a.offset) :
    readRange s root index a b =
      .ok (userRecords a.offset b.offset ((f :: fs).flatMap WalFile.entries)) := by
  obtain ⟨⟨k, hfloor⟩, -⟩ := id hnamed
  have hmem := OrdMap.mem_filter.mp (OrdMap.mem_of_last? hfloor)
  have hk : k ≤ a.offset := of_decide_eq_true hmem.2
  have hlt : a.offset < b.offset := hahead.2.2.2.1
  have hin : ∀ {x : Nat × Nat}, x ∈ (index.map.filter fun e =>
      decide (k ≤ e.1 ∧ e.1 < b.offset)).entries ↔ x ∈ index.map ∧ k ≤ x.1 ∧ x.1 < b.offset := by
    intro x
    rw [← OrdMap.mem_def, OrdMap.mem_filter, decide_eq_true_eq]
  have hsorted := (index.map.filter fun e => decide (k ≤ e.1 ∧ e.1 < b.offset)).sorted
  rw [readRange, hfloor]
  simp only
  generalize (index.map.filter fun e => decide (k ≤ e.1 ∧ e.1 < b.offset)).entries = es
    at hin hsorted
  -- The entries of the range begin with the floor entry.
  have hkmem := hin.mpr ⟨hmem.1, le_refl k, by simp only; omega⟩
  cases es with
  | nil => cases hkmem
  | cons x =>
    obtain rfl : x = (k, f.epoch) := by
      rcases mem_cons.mp hkmem with heq | hes
      · exact heq.symm
      · have hxk := (pairwise_cons.mp hsorted).1 _ hes
        have hge := (hin.mp mem_cons_self).2.1
        omega
    have hreads := rangeReads_ahead root hahead hnamed hb hk
      (fun x hx => (hin.mp hx).1) hsorted (fun x hx hle hxb => hin.mpr ⟨hx, hle, hxb⟩)
    have hat : ∀ g, (f :: fs).head? = some g → StartsAt a.offset a.offset g := by
      intro g hg
      cases hg
      rw [← hoffset]
      exact startsAt_entry (hvalid f mem_cons_self) he
    obtain ⟨ls, hls, hflat⟩ := mapM_readRecords hahead (le_refl _) hat hvalid hs
    rw [if_neg (by omega), if_neg (by simp), hreads, hls, ← hflat]
    rfl

end WalReader

/-! ## The windows of a range -/

def WalFile.ByStart (f g : WalFile) : Prop := f.startOffset ≤ g.startOffset

instance : DecidableRel WalFile.ByStart := fun f g => by unfold WalFile.ByStart; infer_instance

/-- The files of a bucket whose windows meet `[a, b)`, by start offset. -/
def coverFiles (store : List WalFile) (a b : Nat) : List WalFile :=
  (store.filter fun f => f.startOffset < b ∧ a < f.endOffset).insertionSort WalFile.ByStart

theorem mem_coverFiles :
    f ∈ coverFiles store a b ↔ f ∈ store ∧ f.startOffset < b ∧ a < f.endOffset := by
  rw [coverFiles, mem_insertionSort, mem_filter, decide_eq_true_eq]

/-- The range starts at a record, and its windows are aligned blocks that are all there, each of
them once. -/
structure Covers (store : List WalFile) (a b : Nat) : Prop where
  tiles : Windows.Tiles WalFile.startOffset WalFile.endOffset (floorAlignOffset a)
    (coverFiles store a b) (ceilAlignOffset b)
  aligned : ∀ f ∈ coverFiles store a b, f.Aligned
  record : ∃ f ∈ store, ∃ e ∈ f.entries, e.offset = a

namespace Covers

variable {store : List WalFile} {a b : Nat}

instance : Decidable (Covers store a b) :=
  decidable_of_iff (Windows.Tiles WalFile.startOffset WalFile.endOffset (floorAlignOffset a)
    (coverFiles store a b) (ceilAlignOffset b) ∧ (∀ f ∈ coverFiles store a b, f.Aligned) ∧
      ∃ f ∈ store, ∃ e ∈ f.entries, e.offset = a)
    ⟨fun h => ⟨h.1, h.2.1, h.2.2⟩, fun h => ⟨h.tiles, h.aligned, h.record⟩⟩

theorem ahead_of_tiles {next : Nat}
    (ht : Windows.Tiles WalFile.startOffset WalFile.endOffset next fs (ceilAlignOffset b))
    (hfs : ∀ f ∈ fs, f.Aligned ∧ f.startOffset < b) : WalReader.Ahead b next fs := by
  induction fs generalizing next with
  | nil =>
    obtain rfl : next = ceilAlignOffset b := ht
    exact le_ceilAlignOffset b
  | cons f fs ih =>
    obtain ⟨rfl, hlt, hrest⟩ := ht
    obtain ⟨haligned, hb⟩ := hfs f mem_cons_self
    exact ⟨haligned, le_refl _, hlt, hb, ih hrest fun g hg => hfs g (mem_cons_of_mem f hg)⟩

theorem exists_ahead (h : Covers store a b) (hab : a < b) : ∃ f fs,
    coverFiles store a b = f :: fs ∧ WalReader.Ahead b a (f :: fs) := by
  have hall : ∀ f ∈ coverFiles store a b, f.Aligned ∧ f.startOffset < b := fun f hf =>
    ⟨h.aligned f hf, (mem_coverFiles.mp hf).2.1⟩
  have ht := h.tiles
  cases hc : coverFiles store a b with
  | nil =>
    rw [hc] at ht
    have hend : floorAlignOffset a = ceilAlignOffset b := ht
    have hle := le_ceilAlignOffset b
    simp only [floorAlignOffset, dataFileAlignSize] at hend
    omega
  | cons f fs =>
    rw [hc] at ht hall
    obtain ⟨hstart, -, hrest⟩ := ht
    obtain ⟨haligned, -⟩ := hall f mem_cons_self
    refine ⟨f, fs, rfl, haligned, ?_, (mem_coverFiles.mp (hc ▸ mem_cons_self)).2.2, hab,
      ahead_of_tiles hrest fun g hg => hall g (mem_cons_of_mem f hg)⟩
    rw [hstart]
    simp only [floorAlignOffset, dataFileAlignSize]
    omega

end Covers

/-! ## A reader beside the writers -/

/-- The writers of a bucket and one reader. `indexed` are the files that its index was built
from. -/
structure WalReads where
  cluster : Cluster
  index : ReaderIndex
  indexed : List WalFile

inductive ReadsAct where
  | cluster (x : ClusterAct)
  | getRange (start stop : RecordOffset)
  deriving DecidableEq

def indexOf (root : Key) (files : List WalFile) : ReaderIndex :=
  ⟨startOffsetToEpoch (listedObjects root files),
    (listedObjects root files).getLast?.map WalObject.epoch⟩

namespace WalReads

def new (dir : Key) (clusterId : List Char) (store : List WalFile) (configs : List WalConfig) :
    WalReads :=
  ⟨Cluster.new dir clusterId store configs, .new, []⟩

def getRange (s : WalReads) (start stop : RecordOffset) :
    Except WalError (List StreamRecordBatch) × ReaderIndex :=
  WalReader.getRange s.cluster.storage s.cluster.root s.index start stop

/-- The files behind the index that a read up to `stop` uses: the cached ones if the cached index
knows the epoch, the present ones otherwise. -/
def listingFor (s : WalReads) (stop : RecordOffset) : List WalFile :=
  if s.index.largestEpoch.any (stop.epoch ≤ ·) then s.indexed else s.cluster.store

def step (s : WalReads) : ReadsAct → Option WalReads
  | .cluster x => (s.cluster.step x).map fun cluster => { s with cluster }
  | .getRange start stop => some { s with
      index := (s.getRange start stop).2
      indexed := if start.offset = stop.offset then s.indexed else s.listingFor stop }

/-- The index of the read names the writer's epoch for every window of the range. -/
def IndexNames (s : WalReads) (start stop : RecordOffset) : Prop :=
  ∀ f ∈ coverFiles s.cluster.store start.offset stop.offset,
    Names (s.listingFor stop) (max start.offset f.startOffset) f.epoch

instance (s : WalReads) (start stop : RecordOffset) : Decidable (s.IndexNames start stop) := by
  unfold IndexNames
  infer_instance

structure Inv (s : WalReads) : Prop where
  cluster : s.cluster.Inv
  index : s.index = indexOf s.cluster.root s.indexed

variable {s s' : WalReads} {x : ReadsAct} {start stop : RecordOffset}

theorem Inv.ensureIndex (h : Inv s) (stop : RecordOffset) :
    WalReader.ensureIndex s.cluster.storage s.cluster.root s.index stop.epoch =
      indexOf s.cluster.root (s.listingFor stop) := by
  rw [WalReader.ensureIndex, listingFor]
  split
  · exact h.index
  · rw [Cluster.storage, Cluster.root, parseWalObjects_list h.cluster.bucket.valid]
    rfl

theorem root_step {c : Cluster} {x : ClusterAct} (h : c.step x = some c') : c'.root = c.root := by
  cases Cluster.effect_of_step h <;> rfl

theorem Inv.step (h : Inv s) (hs : s.step x = some s') : Inv s' := by
  cases x with
  | cluster =>
    obtain ⟨c, hc, rfl⟩ := Option.map_eq_some_iff.mp hs
    refine ⟨h.cluster.step hc, ?_⟩
    simp only [root_step hc]
    exact h.index
  | getRange start stop =>
    cases hs
    refine ⟨h.cluster, ?_⟩
    simp only [getRange, WalReader.getRange]
    split
    · exact h.index
    · exact h.ensureIndex stop

theorem Inv.new (hstore : Cluster.Bucket (dir ++ ['/']) store)
    (hroot : ∀ c ∈ configs, c.root = dir ++ ['/']) : Inv (new dir clusterId store configs) :=
  ⟨.new hstore hroot, rfl⟩

theorem named_of_names {next : Nat} (h : WalReader.Ahead b next fs) (ha : a ≤ next)
    (hhead : ∀ g, fs.head? = some g → max a g.startOffset = next)
    (hn : ∀ f ∈ fs, Names files (max a f.startOffset) f.epoch) :
    WalReader.Named (indexOf root files).map next fs := by
  induction fs generalizing next with
  | nil => trivial
  | cons f fs ih =>
    obtain ⟨hf, -, hhi, -, hrest⟩ := h
    have hfloor := (hn f mem_cons_self).floor? root
    rw [hhead f rfl] at hfloor
    refine ⟨hfloor, ih hrest (ha.trans hhi.le) (fun g hg => ?_)
      fun g hg => hn g (mem_cons_of_mem f hg)⟩
    obtain ⟨gs, rfl⟩ := head?_eq_some_iff.mp hg
    rw [WalReader.Ahead.start_eq hf hrest]
    exact max_eq_right (ha.trans hhi.le)

theorem Inv.readRange (h : Inv s) (hlt : start.offset < stop.offset)
    (hcover : Covers s.cluster.store start.offset stop.offset) (hindex : s.IndexNames start stop) :
    (s.getRange start stop).1 = .ok (WalReader.userRecords start.offset stop.offset
      ((coverFiles s.cluster.store start.offset stop.offset).flatMap WalFile.entries)) := by
  obtain ⟨f, fs, hfs, hahead⟩ := hcover.exists_ahead hlt
  have hmem : ∀ g ∈ f :: fs, g ∈ s.cluster.store := fun g hg =>
    (mem_coverFiles.mp (hfs ▸ hg)).1
  have hvalid : ∀ g ∈ f :: fs, g.Valid := fun g hg => h.cluster.bucket.valid g (hmem g hg)
  have hlast : stop.offset < 2 ^ 64 := by
    obtain ⟨l, hl⟩ := Option.isSome_iff_exists.mp
      (getLast?_isSome.mpr (cons_ne_nil f fs))
    have hlv := hvalid l (mem_of_getLast? hl)
    have htiles := hcover.tiles
    obtain ⟨front, hfront⟩ := getLast?_eq_some_iff.mp hl
    rw [hfs, hfront] at htiles
    obtain ⟨mid, -, -, -, hend⟩ := Windows.Tiles.append.mp htiles
    have hend : l.endOffset = ceilAlignOffset stop.offset := hend
    have := le_ceilAlignOffset stop.offset
    have := hlv.endOffset_lt
    omega
  -- The record at the start of the range is in its first window.
  obtain ⟨g, hg, e, he, hoffset⟩ := hcover.record
  obtain ⟨hlo, hpos, hhi⟩ := (h.cluster.bucket.valid g hg).bounds he
  obtain rfl : g = f := by
    have hgc : g ∈ f :: fs := hfs ▸ mem_coverFiles.mpr ⟨hg, by omega, by omega⟩
    refine (mem_cons.mp hgc).resolve_right fun hgfs => ?_
    have hpair := hcover.tiles.pairwise
    rw [hfs] at hpair
    have hle := (pairwise_cons.mp hpair).1 g hgfs
    have := hahead.2.2.1
    omega
  have hne : start.offset ≠ stop.offset := hlt.ne
  have hnamed : WalReader.Named (indexOf s.cluster.root (s.listingFor stop)).map start.offset
      (g :: fs) := by
    refine named_of_names hahead (le_refl _) (fun x hx => ?_) (hfs ▸ hindex)
    cases hx
    exact max_eq_left hahead.2.1
  simp only [getRange, WalReader.getRange, if_neg hne, h.ensureIndex stop, hfs]
  exact WalReader.readRange_files hahead hnamed hlast hvalid
    (fun x hx => stored_of_keys h.cluster.bucket.keys x (hmem x hx)) he hoffset

/-- **Range read of the WAL.** Any number of writers change the bucket, and the reader has an
index from any earlier calls. A range that starts at a record and whose windows are aligned
blocks, all there and each there once, is read exactly, if the listing behind the index names the
writer of every window: of the first objects of the epochs, the last one at or below the window is
of the epoch that wrote it. -/
theorem get_range_exact {dir : Key} {clusterId : List Char} {store : List WalFile}
    {configs : List WalConfig} {xs : List ReadsAct}
    (hstore : Cluster.Bucket (dir ++ ['/']) store)
    (hroot : ∀ c ∈ configs, c.root = dir ++ ['/'])
    (hrun : run step (new dir clusterId store configs) xs = some s)
    (hle : start.offset ≤ stop.offset)
    (hcover : start.offset < stop.offset → Covers s.cluster.store start.offset stop.offset)
    (hindex : start.offset < stop.offset → s.IndexNames start stop) :
    ∃ es : List WalEntry, (s.getRange start stop).1 = .ok (es.map WalEntry.record) ∧
      (es.Pairwise fun d e => d.offset < e.offset) ∧
      ∀ e, e ∈ es ↔ (∃ f ∈ s.cluster.store, e ∈ f.entries) ∧ start.offset ≤ e.offset ∧
        e.offset < stop.offset ∧ ¬ WalReader.isTriggerTrimRecord e.record := by
  have h : Inv s := run_invariant (fun hi hs => hi.step hs)
    (.new hstore hroot) hrun
  rcases hle.lt_or_eq with hlt | heq
  · have hvalid := h.cluster.bucket.valid
    refine ⟨_, h.readRange hlt (hcover hlt) (hindex hlt), ?_, fun e => ?_⟩
    · refine List.Pairwise.filter _ (entries_sorted (fun f hf => ?_) (hcover hlt).tiles.pairwise)
      exact hvalid f (mem_coverFiles.mp hf).1
    · rw [mem_filter, mem_flatMap, decide_eq_true_eq]
      constructor
      · rintro ⟨⟨f, hf, he⟩, hin⟩
        exact ⟨⟨f, (mem_coverFiles.mp hf).1, he⟩, hin⟩
      · rintro ⟨⟨f, hf, he⟩, hin⟩
        have hb := (hvalid f hf).bounds he
        exact ⟨⟨f, mem_coverFiles.mpr ⟨hf, by omega, by omega⟩, he⟩, hin⟩
  · refine ⟨[], ?_, .nil, fun e => ⟨nofun, fun he => by omega⟩⟩
    simp only [getRange, WalReader.getRange, if_pos heq]
    rfl

/-- Epoch 1 has two PUTs in flight when epoch 2 finds the bucket empty and writes three windows;
then the second PUT of epoch 1 takes effect. -/
def lateWindow : List ClusterAct :=
  (.acquire oldOwner.lease :: [.startVerify .held, .startList [],
      .submit ⟨5, 0, 0, 1, [1]⟩, .place 0, .flush, .submit ⟨5, 0, 1, 1, [2]⟩, .place 0, .flush,
      .tryUpload, .uploadStart 1, .uploadStart 2].map (.node 0)) ++
    (.acquire newOwner.lease :: [.startVerify .held, .startList [],
      .submit ⟨5, 0, 0, 1, [1]⟩, .place 0, .flush, .submit ⟨5, 0, 1, 1, [2]⟩, .place 0, .flush,
      .submit ⟨5, 0, 2, 1, [3]⟩, .place 0, .flush, .tryUpload, .uploadStart 1, .uploadStart 2,
      .uploadStart 3, .putLand 1, .putLand 2, .putLand 3, .putReturn 1 true, .putReturn 2 true,
      .putReturn 3 true, .recv, .verify .held, .loadFenced, .completeBulk, .completeBulk,
      .completeBulk].map (.node 1)) ++ [.node 0 (.putLand 2)]

def lateWindowStart : RecordOffset := ⟨2, 2 * dataFileAlignSize, 58⟩

def lateWindowStop : RecordOffset := ⟨2, 3 * dataFileAlignSize, 0⟩

/-- Two owners of an empty prefix, before any read. -/
abbrev twoOwners : WalReads := new oldOwner.dir oldOwner.clusterId [] [oldOwner, newOwner]

/-- The reader takes the late object of epoch 1 for the start of a run of epoch 1 and asks for the
third window under epoch 1. -/
theorem late_object_misleads_index : ∃ (s : WalReads) (w : Writer) (a : Ack),
    run step twoOwners (lateWindow.map .cluster) = some s ∧
    s.cluster.nodes[1]? = some w ∧ a ∈ w.acks ∧
    a.result = .ok ⟨lateWindowStart, lateWindowStop⟩ ∧
    Covers s.cluster.store lateWindowStart.offset lateWindowStop.offset ∧
    (s.getRange lateWindowStart lateWindowStop).1 = .error (.storage (.notFound
      (genObjectPathV1 s.cluster.root 1 (2 * dataFileAlignSize) (3 * dataFileAlignSize)))) := by
  obtain ⟨s, hs, ⟨w, hw, hack⟩, hcover, hget⟩ : ∃ s,
      run step twoOwners (lateWindow.map .cluster) = some s ∧
      (∃ w, s.cluster.nodes[1]? = some w ∧ ⟨(3, 0), ⟨5, 0, 2, 1, [3]⟩,
        .ok ⟨lateWindowStart, lateWindowStop⟩⟩ ∈ w.acks) ∧
      Covers s.cluster.store lateWindowStart.offset lateWindowStop.offset ∧
      (s.getRange lateWindowStart lateWindowStop).1 = .error (.storage (.notFound
        (genObjectPathV1 s.cluster.root 1 (2 * dataFileAlignSize) (3 * dataFileAlignSize)))) := by
    decide +kernel
  exact ⟨s, w, _, hs, hw, hack, rfl, hcover, hget⟩

/-- Before the late PUT takes effect, an earlier call has built the index and the same range is
read. -/
theorem get_range_exact_third : ∃ (s : WalReads) (es : List WalEntry),
    run step twoOwners
      ((lateWindow.dropLast.map .cluster) ++ [.getRange ⟨2, 0, 58⟩ lateWindowStop]) = some s ∧
    (s.getRange lateWindowStart lateWindowStop).1 = .ok (es.map WalEntry.record) ∧
    ⟨2 * dataFileAlignSize, ⟨5, 0, 2, 1, [3]⟩⟩ ∈ es := by
  obtain ⟨s, hs, hentry, hcover, hindex⟩ : ∃ s, run step twoOwners
      ((lateWindow.dropLast.map .cluster) ++ [.getRange ⟨2, 0, 58⟩ lateWindowStop]) = some s ∧
      (∃ f ∈ s.cluster.store, ⟨2 * dataFileAlignSize, ⟨5, 0, 2, 1, [3]⟩⟩ ∈ f.entries) ∧
      Covers s.cluster.store lateWindowStart.offset lateWindowStop.offset ∧
      s.IndexNames lateWindowStart lateWindowStop := by decide +kernel
  have hroot : ∀ c ∈ [oldOwner, newOwner], c.root = oldOwner.dir ++ ['/'] := by decide +kernel
  obtain ⟨es, hget, -, hes⟩ := get_range_exact ⟨fun f hf => (by cases hf), .nil⟩ hroot hs
    (by decide) (fun _ => hcover) (fun _ => hindex)
  exact ⟨s, es, hs, hget, (hes _).mpr ⟨hentry, by decide, by decide, by decide⟩⟩

end WalReads

end S3Stream
