import McSim.Pthread.PlayTraces
import Mathlib.Data.List.TakeDrop

/-! What the player makes of a file that the generator wrote.
The player always replays whole groups. A file holds the groups that were completed while its slice
was traced, so it plays back the slice if slices begin and end with groups, and only then. -/

namespace McSim

open Pthread

variable {snappy : Snappy} {g : List PTSInstrTrace} {gs : List (List PTSInstrTrace)}

def groupCells (snappy : Snappy) (i : Nat) (g : List PTSInstrTrace) : List Cell :=
  wordCells i ++ (wordCells (snappy.rawCompress g).length ++ rawCells (snappy.rawCompress g))

/-- Groups after the first `i` of a file -/
def recordsFrom (snappy : Snappy) : Nat → List (List PTSInstrTrace) → List Cell
  | _, [] => []
  | i, g :: gs => groupCells snappy (i + 1) g ++ recordsFrom snappy (i + 1) gs

def footerOf (snappy : Snappy) (gs : List (List PTSInstrTrace)) : Footer where
  offset := (recordsFrom snappy 0 gs).length
  totalSlice := gs.length
  instrGroupSize := instrGroupSize
  magicNumber := kTraceMagicNumber

def traceFile (snappy : Snappy) (gs : List (List PTSInstrTrace)) : List Cell :=
  recordsFrom snappy 0 gs ++ footerCells (footerOf snappy gs)

theorem recordsFrom_append (i : Nat) (gs more : List (List PTSInstrTrace)) :
    recordsFrom snappy i (gs ++ more) =
      recordsFrom snappy i gs ++ recordsFrom snappy (i + gs.length) more := by
  induction gs generalizing i with
  | nil => rfl
  | cons g gs ih =>
    rw [List.cons_append, recordsFrom, recordsFrom, ih, List.append_assoc, List.length_cons,
      Nat.add_assoc, Nat.add_comm 1]

@[simp] theorem length_wordCells (w : Nat) : (wordCells w).length = sizeofSizeT := by
  rw [wordCells, List.length_map, List.length_range]

@[simp] theorem length_footerCells (f : Footer) : (footerCells f).length = sizeofFooter := by
  rw [footerCells, List.length_map, List.length_range]

@[simp] theorem length_rawCells (bytes : List UInt8) : (rawCells bytes).length = bytes.length :=
  List.length_map _

theorem length_groupCells (i : Nat) (g : List PTSInstrTrace) :
    (groupCells snappy i g).length = 2 * sizeofSizeT + (snappy.rawCompress g).length := by
  simp only [groupCells, List.length_append, length_wordCells, length_rawCells]
  omega

theorem read_append (cells rest : List Cell) :
    ({ rest := cells ++ rest } : Ifstream).read cells.length = (cells, { rest }) := by
  simp [Ifstream.read]

theorem ofWordCells_wordCells (old w : Nat) : ofWordCells old (wordCells w) = some w := by
  have first : wordCells w = .word w 0 :: (wordCells w).tail := rfl
  rw [first, ofWordCells, ← first, if_pos rfl]

theorem ofFooterCells_footerCells (f : Footer) : ofFooterCells (footerCells f) = some f := by
  have first : footerCells f = .footer f 0 :: (footerCells f).tail := rfl
  rw [first, ofFooterCells, ← first, if_pos rfl]

theorem ofRawCells_rawCells (bytes : List UInt8) : ofRawCells (rawCells bytes) = some bytes := by
  induction bytes with
  | nil => rfl
  | cons byte bytes ih =>
    unfold ofRawCells rawCells at ih ⊢
    rw [List.map_cons, List.mapM_cons, ih]
    rfl

theorem overwrite_of_length_le {α : Type} {old new : List α} (h : old.length ≤ new.length) :
    overwrite old new = new := by
  rw [overwrite, List.drop_eq_nil_of_le h, List.append_nil]

theorem take_overwrite {α : Type} (old new : List α) : (overwrite old new).take new.length = new :=
  List.take_left

theorem playGroup_groupCells {p : Player} {i : Nat} {rest : List Cell}
    (hg : g.length = instrGroupSize) (hf : p.file = { rest := groupCells snappy i g ++ rest })
    (hi : p.instrs.length ≤ instrGroupSize) :
    ∃ p', playGroup snappy 0 p = .ok (p', g) ∧ p'.file = { rest } ∧ p'.sliceCount = i ∧
      p'.instrs.length = instrGroupSize := by
  have word : ∀ w (after : List Cell),
      ({ rest := wordCells w ++ after } : Ifstream).read sizeofSizeT =
        (wordCells w, { rest := after }) :=
    fun w after => by
      rw [← length_wordCells w]
      exact read_append _ _
  have data := read_append (rawCells (snappy.rawCompress g)) rest
  rw [length_rawCells] at data
  have fits := snappy.length_rawCompress g
  rw [hg] at fits
  have enough : (snappy.rawCompress g).length ≤
      (overwrite p.compressed (snappy.rawCompress g)).length := by
    rw [overwrite, List.length_append]
    omega
  refine ⟨{
    file := { rest }, sliceCount := i, compressedLength := (snappy.rawCompress g).length
    compressed := overwrite p.compressed (snappy.rawCompress g), instrs := g
    numSentInstrs := p.numSentInstrs + instrGroupSize }, ?_, rfl, rfl, hg⟩
  unfold playGroup
  rw [hf, groupCells, List.append_assoc, List.append_assoc, word]
  simp only [ofWordCells_wordCells, word, data, ofRawCells_rawCells]
  rw [if_neg (by omega), take_overwrite]
  simp only [snappy.rawUncompress_rawCompress, overwrite_of_length_le (hi.trans hg.ge)]
  rw [if_neg (by simp [hg]), Nat.zero_sub, List.drop_zero]
  rfl

theorem playGroups_recordsFrom {p : Player} {i fuel : Nat} {rest : List Cell}
    (full : ∀ g ∈ gs, g.length = instrGroupSize) (ne : gs ≠ []) (hfuel : gs.length ≤ fuel)
    (hf : p.file = { rest := recordsFrom snappy i gs ++ rest })
    (hi : p.instrs.length ≤ instrGroupSize) :
    ∃ sent, playGroups snappy 0 (i + gs.length) fuel p = (gs.flatten, .finished, sent) := by
  induction gs generalizing i fuel p with
  | nil => exact absurd rfl ne
  | cons g gs ih =>
    obtain ⟨fuel, rfl⟩ : ∃ n, fuel = n + 1 :=
      ⟨fuel - 1, by simp only [List.length_cons] at hfuel; omega⟩
    rw [recordsFrom, List.append_assoc] at hf
    obtain ⟨p', played, file, count, instrs⟩ :=
      playGroup_groupCells (full g List.mem_cons_self) hf hi
    rw [playGroups, played]
    dsimp only
    rw [count, List.length_cons]
    cases gs with
    | nil => exact ⟨p'.numSentInstrs, by simp⟩
    | cons g' gs =>
      rw [if_pos (by simp)]
      obtain ⟨sent, more⟩ := ih (fun g hg => full g (List.mem_cons_of_mem _ hg)) (by simp)
        (Nat.le_of_succ_le_succ hfuel) file instrs.le
      rw [show i + ((g' :: gs).length + 1) = i + 1 + (g' :: gs).length by omega, more]
      exact ⟨sent, rfl⟩

theorem checkFooter_traceFile (gs : List (List PTSInstrTrace)) :
    checkFooter (traceFile snappy gs) =
      if gs = [] then .error .assertion else .ok (footerOf snappy gs) := by
  have length : (traceFile snappy gs).length = (recordsFrom snappy 0 gs).length + sizeofFooter := by
    rw [traceFile, List.length_append, length_footerCells]
  have tail : (traceFile snappy gs).drop (recordsFrom snappy 0 gs).length =
      footerCells (footerOf snappy gs) := List.drop_left
  unfold checkFooter
  rw [length, if_neg (by omega), Nat.add_sub_cancel]
  simp only [tail, ofFooterCells_footerCells]
  by_cases empty : gs = []
  · simp [empty, footerOf]
  · rw [if_neg empty, if_pos]
    exact ⟨rfl, rfl, List.length_pos_iff.mpr empty⟩

/-- With enough fuel the file is played from end to end, and these are the calls. -/
def Plays (snappy : Snappy) (file : Option (List Cell)) (calls : List PTSInstrTrace) : Prop :=
  ∃ fuel, ∀ more, fuel ≤ more → playTraces snappy file 0 false more 0 = (calls, .finished)

theorem plays_traceFile (full : ∀ g ∈ gs, g.length = instrGroupSize) (calls : List PTSInstrTrace) :
    Plays snappy (some (traceFile snappy gs)) calls ↔ gs ≠ [] ∧ calls = gs.flatten := by
  have once : ∀ fuel, gs ≠ [] → gs.length ≤ fuel →
      playTraces snappy (some (traceFile snappy gs)) 0 false (fuel + 1) 0 =
        (gs.flatten, .finished) := by
    intro fuel ne hfuel
    have file : (⟨traceFile snappy gs, true⟩ : Ifstream) =
        { rest := recordsFrom snappy 0 gs ++ footerCells (footerOf snappy gs) } := rfl
    obtain ⟨sent, played⟩ := playGroups_recordsFrom
      (p := { file := { rest := traceFile snappy gs }, sliceCount := gs.length, numSentInstrs := 0 })
      full ne hfuel file (Nat.zero_le _)
    rw [Nat.zero_add] at played
    unfold playTraces playFile
    simp only [checkFooter_traceFile, if_neg ne]
    rw [show (footerOf snappy gs).totalSlice = gs.length from rfl, played]
    rfl
  constructor
  · rintro ⟨fuel, plays⟩
    by_cases ne : gs = []
    · have played := plays (fuel + 1) (Nat.le_succ fuel)
      unfold playTraces playFile at played
      simp [checkFooter_traceFile, ne] at played
    · refine ⟨ne, ?_⟩
      have played := plays (max fuel gs.length + 1) (by omega)
      rw [once _ ne (le_max_right _ _)] at played
      exact (congrArg Prod.fst played).symm
  · rintro ⟨ne, rfl⟩
    refine ⟨gs.length + 1, fun more hm => ?_⟩
    obtain ⟨fuel, rfl⟩ : ∃ n, more = n + 1 := ⟨more - 1, by omega⟩
    exact once fuel ne (by omega)

def le : Nat → Nat → List UInt8
  | 0, _ => []
  | n + 1, x => UInt8.ofNat x :: le n (x / 256)

def ofLe : List UInt8 → Nat
  | [] => 0
  | b :: bs => b.toNat + 256 * ofLe bs

theorem length_le (n x : Nat) : (le n x).length = n := by
  induction n generalizing x with
  | zero => rfl
  | succ n ih => rw [le, List.length_cons, ih]

theorem ofLe_le (n x : Nat) (h : x < 256 ^ n) : ofLe (le n x) = x := by
  induction n generalizing x with
  | zero =>
    rw [Nat.pow_zero, Nat.lt_one_iff] at h
    rw [h]
    rfl
  | succ n ih =>
    rw [Nat.pow_succ] at h
    rw [le, ofLe, ih (x / 256) (Nat.div_lt_of_lt_mul (by omega)), UInt8.toNat_ofNat']
    omega

def PTSInstrTrace.words (x : PTSInstrTrace) : List UInt64 :=
  [x.waddr, x.wlen.toUInt64, x.raddr, x.raddr2, x.rlen.toUInt64, x.ip, x.category.toUInt64,
    x.isbranch.toUInt64, x.isbranchtaken.toUInt64, x.rr0.toUInt64, x.rr1.toUInt64, x.rr2.toUInt64,
    x.rr3.toUInt64, x.rw0.toUInt64, x.rw1.toUInt64, x.rw2.toUInt64, x.rw3.toUInt64]

def PTSInstrTrace.ofWords : List UInt64 → PTSInstrTrace
  | [waddr, wlen, raddr, raddr2, rlen, ip, category, isbranch, isbranchtaken, rr0, rr1, rr2, rr3,
      rw0, rw1, rw2, rw3] => {
    waddr, wlen := wlen.toUInt32, raddr, raddr2, rlen := rlen.toUInt32, ip
    category := category.toUInt32, isbranch := isbranch != 0, isbranchtaken := isbranchtaken != 0
    rr0 := rr0.toUInt32, rr1 := rr1.toUInt32, rr2 := rr2.toUInt32, rr3 := rr3.toUInt32
    rw0 := rw0.toUInt32, rw1 := rw1.toUInt32, rw2 := rw2.toUInt32, rw3 := rw3.toUInt32 }
  | _ => {}

theorem PTSInstrTrace.ofWords_words (x : PTSInstrTrace) : ofWords x.words = x := by
  have flag : ∀ b : Bool, (b.toUInt64 != 0) = b := by decide
  cases x
  simp [words, ofWords, flag]

def unpack {α β : Type} (n : Nat) (dec : List α → β) : Nat → List α → List β
  | 0, _ => []
  | m + 1, l => dec (l.take n) :: unpack n dec m (l.drop n)

theorem unpack_flatMap {α β : Type} {n : Nat} {dec : List α → β} {enc : β → List α}
    (hn : ∀ b, (enc b).length = n) (hdec : ∀ b, dec (enc b) = b) (bs : List β) :
    unpack n dec bs.length (bs.flatMap enc) = bs := by
  induction bs with
  | nil => rfl
  | cons b bs ih =>
    have first : (enc b ++ bs.flatMap enc).take n = enc b := List.take_left' (hn b)
    have others : (enc b ++ bs.flatMap enc).drop n = bs.flatMap enc := List.drop_left' (hn b)
    rw [List.length_cons, List.flatMap_cons, unpack, first, others, hdec, ih]

def wordBytes (w : UInt64) : List UInt8 := le 8 w.toNat

def ofWordBytes (bytes : List UInt8) : UInt64 := UInt64.ofNat (ofLe bytes)

theorem length_wordBytes (w : UInt64) : (wordBytes w).length = 8 := length_le 8 w.toNat

theorem ofWordBytes_wordBytes (w : UInt64) : ofWordBytes (wordBytes w) = w := by
  rw [ofWordBytes, wordBytes, ofLe_le 8 w.toNat (by exact w.toNat_lt), UInt64.ofNat_toNat]

def PTSInstrTrace.bytes (x : PTSInstrTrace) : List UInt8 := x.words.flatMap wordBytes

def PTSInstrTrace.ofBytes (bytes : List UInt8) :
    PTSInstrTrace := ofWords (unpack 8 ofWordBytes 17 bytes)

theorem PTSInstrTrace.length_bytes (x : PTSInstrTrace) : x.bytes.length = 136 := by
  simp [bytes, words, length_wordBytes]

theorem PTSInstrTrace.ofBytes_bytes (x : PTSInstrTrace) : ofBytes x.bytes = x := by
  have words : unpack 8 ofWordBytes x.words.length (x.words.flatMap wordBytes) = x.words :=
    unpack_flatMap length_wordBytes ofWordBytes_wordBytes x.words
  rw [ofBytes, bytes, show 17 = x.words.length from rfl, words, ofWords_words]

theorem length_flatMap_bytes (xs : List PTSInstrTrace) :
    (xs.flatMap PTSInstrTrace.bytes).length = xs.length * 136 := by
  rw [List.length_flatMap, List.map_congr_left fun x _ => x.length_bytes, List.map_const',
    List.sum_replicate_nat]

/-- `Snappy` as it would be if it did not compress -/
def plain : Snappy where
  maxCompressedLength n := n * 136
  rawCompress xs := xs.flatMap PTSInstrTrace.bytes
  rawUncompress bytes := some (unpack 136 PTSInstrTrace.ofBytes (bytes.length / 136) bytes)
  length_rawCompress xs := (length_flatMap_bytes xs).le
  rawUncompress_rawCompress xs := by
    rw [length_flatMap_bytes, Nat.mul_div_cancel _ (by decide),
      unpack_flatMap PTSInstrTrace.length_bytes PTSInstrTrace.ofBytes_bytes]

namespace TraceGen

variable {cfg : TraceConfig} {slices : Finset Nat} {stream : List PTSInstrTrace} {s : TraceGen}
  {n k : Nat}

/-- The groups that slice `k` has put into its file after `n` instructions -/
structure Groups (cfg : TraceConfig) (stream : List PTSInstrTrace) (k n : Nat)
    (gs : List (List PTSInstrTrace)) : Prop where
  length : gs.length + k * cfg.sliceSize / instrGroupSize = n / instrGroupSize
  full : ∀ g ∈ gs, g.length = instrGroupSize
  aligned : instrGroupSize ∣ k * cfg.sliceSize →
    gs.flatten = (stream.drop (k * cfg.sliceSize)).take (instrGroupSize * gs.length)

structure Open (cfg : TraceConfig) (stream : List PTSInstrTrace) (k n : Nat) (s : TraceGen) :
    Prop where
  currFile : s.currFile = some k
  groups : ∃ gs, Groups cfg stream k n gs ∧ s.files k = some (recordsFrom cfg.snappy 0 gs) ∧
    s.sliceCount = gs.length ∧ s.offset = (recordsFrom cfg.snappy 0 gs).length
  instrs : ∀ j, k * cfg.sliceSize ≤ j → instrGroupSize * (n / instrGroupSize) ≤ j → j < n →
    stream[j]? = some (s.instrs (j % instrGroupSize))

def Complete (cfg : TraceConfig) (stream : List PTSInstrTrace) (files : Nat → Option (List Cell))
    (k : Nat) : Prop :=
  ∃ gs, files k = some (traceFile cfg.snappy gs) ∧
    Groups cfg stream k ((k + 1) * cfg.sliceSize) gs

/-- The generator between two instructions, or with `startSlice` done. -/
structure Inv (cfg : TraceConfig) (slices : Finset Nat) (stream : List PTSInstrTrace)
    (n index : Nat) (s : TraceGen) : Prop where
  numInstrs : s.numInstrs = n
  currIndex : s.currIndex = index
  sliceIndex : s.sliceIndex = slices.sort.filter (index ≤ ·)
  remains : ∃ k ∈ slices, n < (k + 1) * cfg.sliceSize
  complete : ∀ k ∈ slices, (k + 1) * cfg.sliceSize ≤ n → Complete cfg stream s.files k
  tracing : s.tracing = true ↔ n / cfg.sliceSize ∈ slices ∧ n / cfg.sliceSize < index
  opened : s.tracing = true → Open cfg stream (n / cfg.sliceSize) n s
  idle : s.tracing = false → s.sliceCount = 0 ∧ s.offset = 0

theorem filter_le_of_mem {l : List Nat} (hl : l.Pairwise (· < ·)) {m : Nat} (hm : m ∈ l) :
    l.filter (m ≤ ·) = m :: l.filter (m + 1 ≤ ·) := by
  induction l with
  | nil => cases hm
  | cons a l ih =>
    obtain ⟨ha, hl⟩ := List.pairwise_cons.mp hl
    rcases List.mem_cons.mp hm with rfl | hm
    · have all : l.filter (m ≤ ·) = l := List.filter_eq_self.mpr fun b hb => by
        simpa using (ha b hb).le
      have all' : l.filter (m + 1 ≤ ·) = l := List.filter_eq_self.mpr fun b hb => by
        exact decide_eq_true (Nat.succ_le_of_lt (ha b hb))
      rw [List.filter_cons_of_pos (by simp), List.filter_cons_of_neg (by simp), all, all']
    · have less := ha m hm
      rw [List.filter_cons_of_neg (by simpa using less), List.filter_cons_of_neg (by simp; omega),
        ih hl hm]

theorem filter_le_of_not_mem {l : List Nat} {m : Nat} (hm : m ∉ l) :
    l.filter (m ≤ ·) = l.filter (m + 1 ≤ ·) := by
  refine List.filter_congr fun a ha => ?_
  have ne : a ≠ m := fun h => hm (h ▸ ha)
  simp only [decide_eq_decide]
  omega

theorem sort_pairwise (slices : Finset Nat) : slices.sort.Pairwise (· < ·) :=
  slices.sortedLT_sort.pairwise

theorem div_of_mod_eq_zero_succ {S : Nat} (hS : 0 < S) (h : (n + 1) % S = 0) :
    (n / S + 1) * S = n + 1 := by
  obtain ⟨q, hq⟩ := Nat.dvd_of_mod_eq_zero h
  have pos : 0 < q := Nat.pos_of_ne_zero fun h0 => by simp [h0] at hq
  have : n / S = q - 1 := by
    refine Nat.div_eq_of_lt_le ?_ ?_
    · have : (q - 1) * S = S * q - S := by rw [Nat.sub_mul, one_mul, mul_comm]
      omega
    · have : (q - 1 + 1) * S = S * q := by rw [Nat.sub_add_cancel pos, mul_comm]
      omega
  rw [this, Nat.sub_add_cancel pos, mul_comm]
  exact hq.symm

theorem div_succ_of_mod_ne_zero {S : Nat} (h : (n + 1) % S ≠ 0) : (n + 1) / S = n / S := by
  rw [Nat.succ_div, if_neg (fun hd => h (Nat.mod_eq_zero_of_dvd hd)), Nat.add_zero]

def begun (cfg : TraceConfig) (n : Nat) : Nat :=
  if n % cfg.sliceSize = 0 then n / cfg.sliceSize else n / cfg.sliceSize + 1

theorem groups_nil (cfg : TraceConfig) (stream : List PTSInstrTrace) (k : Nat) :
    Groups cfg stream k (k * cfg.sliceSize) [] where
  length := by simp
  full := fun _ h => by cases h
  aligned := fun _ => by simp

theorem startSlice_inv (h : Inv cfg slices stream n (begun cfg n) s) :
    ∃ s', s.startSlice cfg = .ok s' ∧ Inv cfg slices stream n (n / cfg.sliceSize + 1) s' := by
  unfold startSlice
  rw [h.numInstrs]
  by_cases hn : n % cfg.sliceSize = 0
  · have index : begun cfg n = n / cfg.sliceSize := if_pos hn
    have start : n / cfg.sliceSize * cfg.sliceSize = n :=
      Nat.div_mul_cancel (Nat.dvd_of_mod_eq_zero hn)
    have untraced : s.tracing = false := by
      rw [Bool.eq_false_iff, Ne, h.tracing, index]
      exact fun h => lt_irrefl _ h.2
    have rest := h.sliceIndex
    rw [index] at rest
    rw [if_pos hn, h.currIndex, index]
    by_cases mem : n / cfg.sliceSize ∈ slices
    · rw [filter_le_of_mem (sort_pairwise slices) ((Finset.mem_sort _).mpr mem)] at rest
      rw [rest]
      dsimp only
      rw [if_pos rfl]
      refine ⟨_, rfl, rfl, rfl, rfl, h.remains, fun k hk hd => ?_, ?_, fun _ => ?_, ?_⟩
      · have before : k ≠ n / cfg.sliceSize := by
          rintro rfl
          rw [Nat.add_mul, start] at hd
          have := cfg.sliceSize_pos
          omega
        obtain ⟨gs, file, groups⟩ := h.complete k hk hd
        exact ⟨gs, (Function.update_of_ne before _ _).trans file, groups⟩
      · exact ⟨fun _ => ⟨mem, Nat.lt_succ_self _⟩, fun _ => rfl⟩
      · refine ⟨rfl, ⟨[], ?_, Function.update_self _ _ _, (h.idle untraced).1, (h.idle untraced).2⟩,
          ?_⟩
        · have nil := groups_nil cfg stream (n / cfg.sliceSize)
          rwa [start] at nil
        · intro j hj _ hn
          omega
      · exact fun h => by cases h
    · rw [filter_le_of_not_mem (fun hm => mem ((Finset.mem_sort _).mp hm))] at rest
      obtain ⟨k, hk, hlt⟩ := h.remains
      have later : n / cfg.sliceSize + 1 ≤ k := by
        have le : n / cfg.sliceSize ≤ k :=
          Nat.le_of_lt_succ (Nat.div_lt_of_lt_mul (by rwa [mul_comm]))
        have ne : n / cfg.sliceSize ≠ k := fun h => mem (h ▸ hk)
        omega
      have mem' : k ∈ s.sliceIndex := by
        rw [rest]
        exact List.mem_filter.mpr ⟨(Finset.mem_sort _).mpr hk, decide_eq_true later⟩
      cases hs : s.sliceIndex with
      | nil => simp [hs] at mem'
      | cons first others =>
        have other : n / cfg.sliceSize ≠ first := by
          have mem' : first ∈ s.sliceIndex := hs ▸ List.mem_cons_self
          rw [rest] at mem'
          have := of_decide_eq_true (List.mem_filter.mp mem').2
          omega
        dsimp only
        rw [if_neg other]
        refine ⟨_, rfl, rfl, rfl, hs.symm.trans rest, h.remains, h.complete, ?_, ?_, h.idle⟩
        · exact ⟨fun h => (by cases untraced.symm.trans h), fun h => absurd h.1 mem⟩
        · exact fun h => by cases untraced.symm.trans h
  · have index : begun cfg n = n / cfg.sliceSize + 1 := if_neg hn
    rw [if_neg hn]
    rw [index] at h
    exact ⟨s, rfl, h⟩

/-- What writing to the file of slice `k` leaves alone -/
structure Apart (k : Nat) (s s' : TraceGen) : Prop where
  files : ∀ k', k' ≠ k → s'.files k' = s.files k'
  instrs : s'.instrs = s.instrs
  numInstrs : s'.numInstrs = s.numInstrs
  currIndex : s'.currIndex = s.currIndex
  sliceIndex : s'.sliceIndex = s.sliceIndex
  tracing : s'.tracing = s.tracing

/-- The open file has this content now; the counters wait. -/
structure Wrote (k : Nat) (content : List Cell) (s s' : TraceGen) : Prop where
  currFile : s'.currFile = some k
  file : s'.files k = some content
  sliceCount : s'.sliceCount = s.sliceCount
  offset : s'.offset = s.offset
  apart : Apart k s s'

theorem write_wrote {before : List Cell} (hc : s.currFile = some k) (hf : s.files k = some before)
    (cells : List Cell) : Wrote k (before ++ cells) s (s.write cells) := by
  unfold write
  rw [hc]
  dsimp only
  rw [hf]
  refine ⟨rfl, Function.update_self _ _ _, rfl, rfl, ⟨fun k' hk => ?_, rfl, rfl, rfl, rfl, rfl⟩⟩
  exact Function.update_of_ne hk _ _

theorem Wrote.write {s' : TraceGen} {content : List Cell} (h : Wrote k content s s')
    (cells : List Cell) : Wrote k (content ++ cells) s (s'.write cells) := by
  have more := write_wrote h.currFile h.file cells
  exact {
    currFile := more.currFile
    file := more.file
    sliceCount := more.sliceCount.trans h.sliceCount
    offset := more.offset.trans h.offset
    apart := {
      files := fun k' hk => (more.apart.files k' hk).trans (h.apart.files k' hk)
      instrs := more.apart.instrs.trans h.apart.instrs
      numInstrs := more.apart.numInstrs.trans h.apart.numInstrs
      currIndex := more.apart.currIndex.trans h.apart.currIndex
      sliceIndex := more.apart.sliceIndex.trans h.apart.sliceIndex
      tracing := more.apart.tracing.trans h.apart.tracing } }

structure Writing (cfg : TraceConfig) (k : Nat) (gs : List (List PTSInstrTrace)) (s : TraceGen) :
    Prop where
  currFile : s.currFile = some k
  file : s.files k = some (recordsFrom cfg.snappy 0 gs)
  sliceCount : s.sliceCount = gs.length
  offset : s.offset = (recordsFrom cfg.snappy 0 gs).length

theorem flushGroup_writing {gs : List (List PTSInstrTrace)} (h : Writing cfg k gs s) :
    Writing cfg k (gs ++ [(List.range instrGroupSize).map s.instrs]) (s.flushGroup cfg) ∧
      Apart k s (s.flushGroup cfg) := by
  have wrote := ((write_wrote (s := { s with sliceCount := s.sliceCount + 1 }) h.currFile h.file
    (wordCells (s.sliceCount + 1))).write (wordCells (cfg.snappy.rawCompress
      ((List.range instrGroupSize).map s.instrs)).length)).write
    (rawCells (cfg.snappy.rawCompress ((List.range instrGroupSize).map s.instrs)))
  refine ⟨⟨wrote.currFile, wrote.file.trans (congrArg some ?_), wrote.sliceCount.trans ?_, ?_⟩,
    ⟨wrote.apart.files, wrote.apart.instrs, wrote.apart.numInstrs, wrote.apart.currIndex,
      wrote.apart.sliceIndex, wrote.apart.tracing⟩⟩
  · rw [recordsFrom_append, recordsFrom, recordsFrom, groupCells, h.sliceCount, Nat.zero_add]
    simp only [List.append_assoc, List.append_nil]
  · show s.sliceCount + 1 = _
    rw [h.sliceCount, List.length_append]
    rfl
  · have offset : (s.flushGroup cfg).offset = s.offset + 2 * sizeofSizeT +
        (cfg.snappy.rawCompress ((List.range instrGroupSize).map s.instrs)).length :=
      congrArg (fun offset => offset + 2 * sizeofSizeT +
        (cfg.snappy.rawCompress ((List.range instrGroupSize).map s.instrs)).length) wrote.offset
    rw [offset, recordsFrom_append, List.length_append, recordsFrom, recordsFrom, List.append_nil,
      length_groupCells, h.offset, Nat.add_assoc]

theorem group_eq {instrs : Nat → PTSInstrTrace} (hn : (n + 1) % instrGroupSize = 0)
    (hi : ∀ j, instrGroupSize * (n / instrGroupSize) ≤ j → j ≤ n →
      stream[j]? = some (instrs (j % instrGroupSize))) :
    (List.range instrGroupSize).map instrs =
      (stream.drop (instrGroupSize * (n / instrGroupSize))).take instrGroupSize := by
  have pos := instrGroupSize_pos
  have last : n % instrGroupSize = instrGroupSize - 1 := by
    have lt := Nat.mod_lt n pos
    rw [Nat.add_mod] at hn
    by_contra ne
    have small : n % instrGroupSize + 1 < instrGroupSize := by omega
    rw [Nat.mod_eq_of_lt (show 1 < instrGroupSize by decide), Nat.mod_eq_of_lt small] at hn
    omega
  have split := Nat.div_add_mod n instrGroupSize
  refine List.ext_getElem? fun i => ?_
  rw [List.getElem?_map, List.getElem?_take, List.getElem?_drop]
  by_cases hlt : i < instrGroupSize
  · rw [if_pos hlt, List.getElem?_range hlt, hi _ (by omega) (by omega), Nat.mul_add_mod,
      Nat.mod_eq_of_lt hlt]
    rfl
  · rw [if_neg hlt, List.getElem?_eq_none (by simpa using hlt)]
    rfl

theorem Groups.flush {gs : List (List PTSInstrTrace)} (h : Groups cfg stream k n gs)
    (hn : (n + 1) % instrGroupSize = 0) {instrs : Nat → PTSInstrTrace}
    (hi : ∀ j, k * cfg.sliceSize ≤ j → instrGroupSize * (n / instrGroupSize) ≤ j → j ≤ n →
      stream[j]? = some (instrs (j % instrGroupSize))) :
    Groups cfg stream k (n + 1) (gs ++ [(List.range instrGroupSize).map instrs]) where
  length := by
    rw [List.length_append, List.length_singleton, Nat.succ_div,
      if_pos (Nat.dvd_of_mod_eq_zero hn), ← h.length]
    omega
  full g hg := by
    rcases List.mem_append.mp hg with hg | hg
    · exact h.full g hg
    · rw [List.mem_singleton.mp hg, List.length_map, List.length_range]
  aligned hd := by
    have pos := instrGroupSize_pos
    obtain ⟨m, hm⟩ := hd
    have length := h.length
    rw [hm, Nat.mul_div_cancel_left m pos] at length
    have start : instrGroupSize * (n / instrGroupSize) =
      k * cfg.sliceSize + instrGroupSize * gs.length := by
      rw [← length, hm, Nat.mul_add, Nat.add_comm]
    have group := group_eq hn fun j hj hjn => hi j (by omega) hj hjn
    rw [List.flatten_append, h.aligned ⟨m, hm⟩, List.flatten_singleton, group, start,
      ← List.drop_drop,
      List.length_append, List.length_singleton, Nat.mul_add, Nat.mul_one, List.take_add]

structure Stores (cfg : TraceConfig) (stream : List PTSInstrTrace) (k n : Nat) (s s' : TraceGen) :
    Prop where
  opened : Open cfg stream k (n + 1) s'
  files : ∀ k', k' ≠ k → s'.files k' = s.files k'
  numInstrs : s'.numInstrs = n + 1
  currIndex : s'.currIndex = s.currIndex
  sliceIndex : s'.sliceIndex = s.sliceIndex
  tracing : s'.tracing = s.tracing

theorem Open.store {x : PTSInstrTrace} (h : Open cfg stream k n s) (hn : s.numInstrs = n)
    (hx : stream[n]? = some x) : Stores cfg stream k n s (s.store cfg x) := by
  unfold TraceGen.store
  rw [hn]
  dsimp only
  set s₁ : TraceGen := { s with
    instrs := Function.update s.instrs (n % instrGroupSize) x, numInstrs := n + 1 } with hs₁
  have stored : ∀ j, k * cfg.sliceSize ≤ j → instrGroupSize * (n / instrGroupSize) ≤ j → j ≤ n →
      stream[j]? = some (s₁.instrs (j % instrGroupSize)) := by
    intro j hj hg hjn
    by_cases now : j = n
    · rw [now]
      exact hx.trans (congrArg some (Function.update_self (n % instrGroupSize) x s.instrs).symm)
    · have group : j / instrGroupSize = n / instrGroupSize := by
        have low : n / instrGroupSize ≤ j / instrGroupSize :=
          (Nat.le_div_iff_mul_le instrGroupSize_pos).mpr (by rwa [Nat.mul_comm])
        exact Nat.le_antisymm (Nat.div_le_div_right hjn) low
      have other : j % instrGroupSize ≠ n % instrGroupSize := fun same => now (by
        have here := Nat.div_add_mod j instrGroupSize
        rw [group, same, Nat.div_add_mod] at here
        exact here.symm)
      rw [h.instrs j hj hg (by omega)]
      exact congrArg some (Function.update_of_ne other _ _).symm
  obtain ⟨gs, groups, file, count, offset⟩ := h.groups
  have writing : Writing cfg k gs s₁ := ⟨h.currFile, file, count, offset⟩
  by_cases flush : (n + 1) % instrGroupSize = 0
  · obtain ⟨writing', apart⟩ := flushGroup_writing writing
    rw [if_pos flush]
    refine ⟨⟨writing'.currFile, ⟨_, groups.flush flush stored, writing'.file, writing'.sliceCount,
      writing'.offset⟩, fun j _ hg hj => ?_⟩, apart.files, apart.numInstrs, apart.currIndex,
      apart.sliceIndex, apart.tracing⟩
    have : instrGroupSize * ((n + 1) / instrGroupSize) = n + 1 :=
      Nat.mul_div_cancel' (Nat.dvd_of_mod_eq_zero flush)
    omega
  · have same : (n + 1) / instrGroupSize = n / instrGroupSize := div_succ_of_mod_ne_zero flush
    rw [if_neg flush]
    refine ⟨⟨h.currFile, ⟨gs, ⟨by rw [same]; exact groups.length, groups.full, groups.aligned⟩,
      file, count, offset⟩, fun j hj hg hjn => ?_⟩, fun _ _ => rfl, rfl, rfl, rfl, rfl⟩
    rw [same] at hg
    exact stored j hj hg (by omega)

/-- Where the generator is after a step: ready for the next instruction, or done. -/
def Goes (cfg : TraceConfig) (slices : Finset Nat) (stream : List PTSInstrTrace) (n : Nat) :
    Except Halt TraceGen → Prop
  | .ok s => Inv cfg slices stream n (begun cfg n) s
  | .error (.exit files) => ∀ k ∈ slices, Complete cfg stream files k
  | .error .undefined => False

theorem closeSlice_goes (hn : (n + 1) % cfg.sliceSize = 0)
    (open' : Open cfg stream (n / cfg.sliceSize) (n + 1) s)
    (complete : ∀ k ∈ slices, (k + 1) * cfg.sliceSize ≤ n → Complete cfg stream s.files k)
    (num : s.numInstrs = n + 1) (index : s.currIndex = n / cfg.sliceSize + 1)
    (rest : s.sliceIndex = slices.sort.filter (n / cfg.sliceSize + 1 ≤ ·)) :
    Goes cfg slices stream (n + 1) s.closeSlice := by
  have pos := cfg.sliceSize_pos
  have stop := div_of_mod_eq_zero_succ pos hn
  have next : (n + 1) / cfg.sliceSize = n / cfg.sliceSize + 1 := by
    rw [Nat.succ_div, if_pos (Nat.dvd_of_mod_eq_zero hn)]
  obtain ⟨gs, groups, file, count, offset⟩ := open'.groups
  have wrote := write_wrote open'.currFile file (footerCells
    { offset := s.offset, totalSlice := s.sliceCount, instrGroupSize, magicNumber := kTraceMagicNumber })
  rw [count, offset] at wrote
  have done : ∀ k ∈ slices, (k + 1) * cfg.sliceSize ≤ n + 1 → Complete cfg stream
      (s.write (footerCells (footerOf cfg.snappy gs))).files k := by
    intro k hkm hle
    by_cases now : k = n / cfg.sliceSize
    · rw [now]
      refine ⟨gs, wrote.file, ?_⟩
      rw [stop]
      exact groups
    · have before : (k + 1) * cfg.sliceSize ≤ n := by
        rcases Nat.lt_or_eq_of_le hle with lt | eq
        · omega
        · have := Nat.eq_of_mul_eq_mul_right pos (eq.trans stop.symm)
          omega
      obtain ⟨gs', file', groups'⟩ := complete k hkm before
      exact ⟨gs', (wrote.apart.files k now).trans file', groups'⟩
  unfold closeSlice
  rw [count, offset]
  dsimp only
  split
  · rename_i empty
    rw [wrote.apart.sliceIndex, rest] at empty
    intro k hkm
    refine done k hkm ?_
    have le : k + 1 ≤ n / cfg.sliceSize + 1 := by
      have out := List.filter_eq_nil_iff.mp empty k ((Finset.mem_sort _).mpr hkm)
      simp only [decide_eq_true_eq] at out
      omega
    rw [← stop]
    exact Nat.mul_le_mul_right _ le
  · rename_i more
    rw [wrote.apart.sliceIndex, rest] at more
    obtain ⟨k, mem⟩ := List.exists_mem_of_ne_nil _ more
    obtain ⟨hkm, hlt⟩ := List.mem_filter.mp mem
    have begun' : begun cfg (n + 1) = n / cfg.sliceSize + 1 := by rw [begun, if_pos hn, next]
    show Inv _ _ _ _ _ _
    rw [begun']
    refine ⟨wrote.apart.numInstrs.trans num, wrote.apart.currIndex.trans index,
      wrote.apart.sliceIndex.trans rest, ⟨k, (Finset.mem_sort _).mp hkm, ?_⟩, done, ?_, ?_,
      fun _ => ⟨rfl, rfl⟩⟩
    · rw [← stop]
      exact Nat.mul_lt_mul_of_pos_right (Nat.lt_succ_of_le (of_decide_eq_true hlt)) pos
    · rw [next]
      exact ⟨fun h => (by cases h), fun h => absurd h.2 (lt_irrefl _)⟩
    · exact fun h => by cases h

theorem processMemIns_goes {x : PTSInstrTrace} (h : Inv cfg slices stream n (begun cfg n) s)
    (hx : stream[n]? = some x) : Goes cfg slices stream (n + 1) (s.processMemIns cfg x) := by
  have pos := cfg.sliceSize_pos
  obtain ⟨s₀, started, inv⟩ := startSlice_inv h
  unfold processMemIns
  rw [started]
  show Goes _ _ _ _ (if s₀.tracing then s₀.record cfg x else _)
  have index : ∀ k ∈ slices, (k + 1) * cfg.sliceSize ≤ n → k ≠ n / cfg.sliceSize := by
    rintro k - hd rfl
    have lt := Nat.lt_mul_div_succ n pos
    rw [Nat.mul_comm] at lt
    omega
  by_cases traced : s₀.tracing = true
  · have mem := (inv.tracing.mp traced).1
    have stores := (inv.opened traced).store inv.numInstrs hx
    have complete : ∀ k ∈ slices, (k + 1) * cfg.sliceSize ≤ n →
        Complete cfg stream (s₀.store cfg x).files k := fun k hk hd => by
      obtain ⟨gs, file, groups⟩ := inv.complete k hk hd
      exact ⟨gs, (stores.files k (index k hk hd)).trans file, groups⟩
    rw [if_pos traced]
    unfold record
    dsimp only
    rw [stores.numInstrs]
    by_cases hn : (n + 1) % cfg.sliceSize = 0
    · rw [if_pos hn]
      exact closeSlice_goes hn stores.opened complete stores.numInstrs
        (stores.currIndex.trans inv.currIndex) (stores.sliceIndex.trans inv.sliceIndex)
    · have same := div_succ_of_mod_ne_zero hn
      have begun' : begun cfg (n + 1) = n / cfg.sliceSize + 1 := by rw [begun, if_neg hn, same]
      have within : n + 1 < (n / cfg.sliceSize + 1) * cfg.sliceSize := by
        rw [← same, Nat.mul_comm]
        exact Nat.lt_mul_div_succ _ pos
      rw [if_neg hn]
      show Inv _ _ _ _ _ _
      rw [begun']
      refine ⟨stores.numInstrs, stores.currIndex.trans inv.currIndex,
        stores.sliceIndex.trans inv.sliceIndex, ⟨_, mem, within⟩,
        fun k hk hd => complete k hk ?_, ?_, fun _ => ?_, fun h => ?_⟩
      · rcases Nat.lt_or_eq_of_le hd with lt | eq
        · omega
        · exact absurd (eq ▸ Nat.mul_mod_left _ _) hn
      · rw [stores.tracing, same]
        exact inv.tracing
      · rw [same]
        exact stores.opened
      · cases (stores.tracing.trans traced).symm.trans h
  · have untraced : s₀.tracing = false := Bool.not_eq_true _ ▸ traced
    have other : n / cfg.sliceSize ∉ slices := fun h =>
      traced (inv.tracing.mpr ⟨h, Nat.lt_succ_self _⟩)
    have begun' : begun cfg (n + 1) = n / cfg.sliceSize + 1 := by
      unfold begun
      split
      · rename_i hn
        rw [Nat.succ_div, if_pos (Nat.dvd_of_mod_eq_zero hn)]
      · rename_i hn
        rw [div_succ_of_mod_ne_zero hn]
    have between : ∀ k ∈ slices, n + 1 ≠ (k + 1) * cfg.sliceSize := fun k hk eq => other (by
      have stop := div_of_mod_eq_zero_succ pos (eq ▸ Nat.mul_mod_left _ _)
      have := Nat.eq_of_mul_eq_mul_right pos (stop.trans eq)
      rwa [show n / cfg.sliceSize = k by omega])
    rw [if_neg traced]
    show Inv _ _ _ _ _ _
    rw [begun']
    obtain ⟨k, hk, hlt⟩ := inv.remains
    refine ⟨congrArg (· + 1) inv.numInstrs, inv.currIndex, inv.sliceIndex, ⟨k, hk, ?_⟩,
      fun k hk hd => inv.complete k hk ?_, ?_, fun h => absurd h traced, fun _ => inv.idle untraced⟩
    · have := between k hk
      omega
    · have := between k hk
      omega
    · refine ⟨fun h => absurd h traced, fun ⟨mem, lt⟩ => absurd mem ?_⟩
      have le : n / cfg.sliceSize ≤ (n + 1) / cfg.sliceSize := Nat.div_le_div_right (Nat.le_succ n)
      rwa [show (n + 1) / cfg.sliceSize = n / cfg.sliceSize by omega]

theorem inv_init (hs : slices.Nonempty) :
    Inv cfg slices stream 0 (begun cfg 0) (init slices) := by
  have pos := cfg.sliceSize_pos
  have zero : begun cfg 0 = 0 := by simp [begun]
  rw [zero]
  obtain ⟨k, hk⟩ := hs
  refine ⟨rfl, rfl, ?_, ⟨k, hk, Nat.mul_pos (Nat.succ_pos k) pos⟩, fun k _ hd => ?_, ?_,
    fun h => (by cases h), fun _ => ⟨rfl, rfl⟩⟩
  · exact (List.filter_eq_self.mpr fun _ _ => by simp).symm
  · have := Nat.mul_pos (show 0 < k + 1 by omega) pos
    omega
  · exact ⟨fun h => (by cases h), fun h => absurd h.2 (Nat.not_lt_zero _)⟩

theorem run_complete (long : ∀ k ∈ slices, (k + 1) * cfg.sliceSize ≤ stream.length)
    (h : Inv cfg slices stream n (begun cfg n) s) :
    ∃ files, run cfg s (stream.drop n) = .error (.exit files) ∧
      ∀ k ∈ slices, Complete cfg stream files k := by
  induction m : stream.length - n generalizing n s with
  | zero =>
    obtain ⟨k, hk, hlt⟩ := h.remains
    have := long k hk
    omega
  | succ m ih =>
    have lt : n < stream.length := by omega
    have goes := processMemIns_goes h (List.getElem?_eq_getElem lt)
    rw [List.drop_eq_getElem_cons lt]
    unfold run
    rw [List.foldlM_cons]
    cases hp : s.processMemIns cfg stream[n] with
    | ok s' =>
      rw [hp] at goes
      exact ih goes (by omega)
    | error e =>
      rw [hp] at goes
      cases e with
      | exit files => exact ⟨files, rfl, goes⟩
      | undefined => exact goes.elim

theorem Complete.plays_iff {files : Nat → Option (List Cell)} (h : Complete cfg stream files k)
    (long : (k + 1) * cfg.sliceSize ≤ stream.length) :
    Plays cfg.snappy (files k) ((stream.drop (k * cfg.sliceSize)).take cfg.sliceSize) ↔
      instrGroupSize ∣ cfg.sliceSize := by
  have pos := instrGroupSize_pos
  obtain ⟨gs, file, groups⟩ := h
  have stop : (k + 1) * cfg.sliceSize = k * cfg.sliceSize + cfg.sliceSize := Nat.succ_mul _ _
  have whole : ((stream.drop (k * cfg.sliceSize)).take cfg.sliceSize).length = cfg.sliceSize := by
    rw [List.length_take, List.length_drop]
    omega
  have flat : gs.flatten.length = gs.length * instrGroupSize := by
    rw [List.length_flatten, List.map_congr_left groups.full, List.map_const',
      List.sum_replicate_nat]
  rw [file, plays_traceFile groups.full]
  constructor
  · rintro ⟨-, played⟩
    rw [played, flat] at whole
    exact ⟨gs.length, by rw [← whole, Nat.mul_comm]⟩
  · rintro ⟨q, hq⟩
    have size := cfg.sliceSize_pos
    have length : gs.length = q := by
      have := groups.length
      rw [stop, hq, Nat.mul_left_comm, ← Nat.mul_add, Nat.mul_div_cancel_left _ pos,
        Nat.mul_div_cancel_left _ pos] at this
      omega
    refine ⟨?_, ?_⟩
    · rintro rfl
      rw [← length, List.length_nil, Nat.mul_zero] at hq
      omega
    · rw [groups.aligned (hq ▸ ⟨k * q, by rw [Nat.mul_left_comm]⟩), length, ← hq]

/-- Every selected slice has a file, which is the slice itself to the player if and only if the
slice size is a multiple of the group size. -/
theorem selected_plays_iff (hs : slices.Nonempty)
    (long : ∀ k ∈ slices, (k + 1) * cfg.sliceSize ≤ stream.length) :
    ∃ files, run cfg (init slices) stream = .error (.exit files) ∧ ∀ k ∈ slices,
      (Plays cfg.snappy (files k) ((stream.drop (k * cfg.sliceSize)).take cfg.sliceSize) ↔
        instrGroupSize ∣ cfg.sliceSize) := by
  obtain ⟨files, ran, complete⟩ := run_complete long (inv_init hs)
  exact ⟨files, ran, fun k hk => (complete k hk).plays_iff (long k hk)⟩

def groupwise : TraceConfig where
  snappy := plain
  sliceSize := instrGroupSize
  sliceSize_pos := instrGroupSize_pos

theorem whole_group_plays : ∃ files,
    run groupwise (init {0}) (List.replicate instrGroupSize {}) = .error (.exit files) ∧
      Plays plain (files 0)
        (((List.replicate instrGroupSize {}).drop (0 * instrGroupSize)).take instrGroupSize) := by
  have long : ∀ k ∈ ({0} : Finset Nat),
      (k + 1) * groupwise.sliceSize ≤ (List.replicate instrGroupSize ({} : PTSInstrTrace)).length :=
    fun k hk => by
      rw [Finset.mem_singleton.mp hk, List.length_replicate, Nat.zero_add, Nat.one_mul]
      rfl
  obtain ⟨files, ran, plays⟩ := selected_plays_iff (Finset.singleton_nonempty 0) long
  exact ⟨files, ran, (plays 0 (Finset.mem_singleton_self 0)).mpr (Nat.dvd_refl _)⟩

def instructionwise : TraceConfig where
  snappy := plain
  sliceSize := 1
  sliceSize_pos := Nat.one_pos

theorem one_instruction_not_played : ¬ ∀ (cfg : TraceConfig) (slices : Finset Nat)
    (stream : List PTSInstrTrace), slices.Nonempty →
      (∀ k ∈ slices, (k + 1) * cfg.sliceSize ≤ stream.length) →
      ∃ files, run cfg (init slices) stream = .error (.exit files) ∧ ∀ k ∈ slices,
        Plays cfg.snappy (files k) ((stream.drop (k * cfg.sliceSize)).take cfg.sliceSize) := by
  intro all
  have long : ∀ k ∈ ({0} : Finset Nat),
      (k + 1) * instructionwise.sliceSize ≤ [({} : PTSInstrTrace)].length := fun k hk => by
    rw [Finset.mem_singleton.mp hk]
    rfl
  obtain ⟨files, ran, plays⟩ := all instructionwise {0} [{}] (Finset.singleton_nonempty 0) long
  have start : Inv instructionwise {0} [{}] 0 (begun instructionwise 0) (init {0}) :=
    inv_init (Finset.singleton_nonempty 0)
  obtain ⟨files', ran', complete⟩ := run_complete long start
  cases ran.symm.trans ran'
  have zero := Finset.mem_singleton_self 0
  have divides := ((complete 0 zero).plays_iff (long 0 zero)).mp (plays 0 zero)
  exact absurd divides (by decide)

end TraceGen
end McSim
