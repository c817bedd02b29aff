import Mathlib.Algebra.Order.BigOperators.Group.List
import LinuxFibers.Driver.Read
import LinuxFibers.Proof.Hash

/-!
# What a file shows

`myread` counts in `*off` what it has copied, but copies from the start of the text every time. `read_back_iff` says
when the statistics come out as they are: the first buffer takes them whole, and the walk finds one fiber only.
-/

namespace LinuxFibers

open HeapTable Runs Reader

/-- A pointer is printed in few characters, and `#` is none of them. -/
structure Printer.Plain (P : Printer) : Prop where
  noMark : ∀ x, '#' ∉ P.pointer x
  short : ∀ x, (P.pointer x).length ≤ 64

section text

variable {P : Printer} {stat : FiberStat} {lens : Nat → Nat} {len off : Nat}

theorem decimal_plain (n : BitVec 64) : '#' ∉ Printer.decimal n ∧ (Printer.decimal n).length ≤ 64 := by
  constructor
  · intro hmem
    exact absurd (Nat.isDigit_of_mem_toDigits (by decide) (by decide) hmem) (by decide)
  · have hn := n.isLt
    exact (Nat.length_toDigits_le_iff (by decide) (by decide)).mpr (by omega)

theorem figures_plain (hP : P.Plain) : ∀ part ∈ P.figures stat, '#' ∉ part ∧ part.length ≤ 64 := by
  have hrunning : '#' ∉ (if stat.running then [] else "not ".toList) ∧
      (if stat.running then [] else "not ".toList).length ≤ 64 := by
    split_ifs <;> decide
  unfold Printer.figures
  simp only [List.forall_mem_cons]
  refine ⟨?_, hrunning, ?_, ?_, ⟨hP.noMark _, hP.short _⟩, ?_, decimal_plain _, ?_, ?_, decimal_plain _, ?_,
    decimal_plain _, ?_, decimal_plain _, ?_, List.forall_mem_nil _⟩ <;> decide +kernel

theorem mark_not_mem_figures (hP : P.Plain) : '#' ∉ (P.figures stat).flatten := by
  intro hmem
  obtain ⟨part, hpart, hmem⟩ := List.mem_flatten.mp hmem
  exact (figures_plain hP part hpart).1 hmem

theorem length_headline : headline.length = 20 := by decide

/-- The text fits the array. -/
theorem sprintf_ok (hP : P.Plain) : sprintf P stat = .ok (P.fiberStat stat) := by
  have hfigures : (P.figures stat).flatten.length ≤ 15 * 64 := by
    rw [List.length_flatten]
    refine (List.sum_le_card_nsmul _ 64 fun n hn => ?_).trans_eq ?_
    · obtain ⟨part, hpart, rfl⟩ := List.mem_map.mp hn
      exact (figures_plain hP part hpart).2
    · rw [List.length_map]
      rfl
  have hlength : (P.fiberStat stat).length < fibLogLen := by
    unfold Printer.fiberStat fibLogLen
    rw [List.length_append, List.length_cons, length_headline]
    omega
  rw [sprintf, if_pos hlength]

theorem fiberStat_pos : 0 < (P.fiberStat stat).length := by
  rw [Printer.fiberStat, List.length_append, length_headline]
  omega

/-! ### What the walk finds -/

/-- What a call returns that finds one fiber with this text. -/
def shown (text : List Char) : Read Fault Char := fun len off =>
  .ok (if text.length ≤ off then { ret := 0, off := off, chunk := [] }
    else { ret := (min len text.length : Nat), off := off + min len text.length, chunk := text.take (min len text.length) })

theorem readStats_single (hP : P.Plain) {ret : Int} :
    readStats P len [stat] { ret := ret, off := off, chunk := [] } = shown (P.fiberStat stat) len off := by
  rw [readStats, sprintf_ok hP, shown]
  simp only [bind, Except.bind]
  split_ifs <;> rfl

variable {text : List Char}

/-- Every chunk is the beginning of the text. -/
theorem calls_shown (hlens : ∀ k, 0 < lens k) {k : Nat} {chunks : List (List Char)}
    (h : Calls (shown text) lens k off chunks) : (∀ c ∈ chunks, c ≠ [] ∧ c <+: text) ∧
      ∀ c ∈ chunks.head?, c = text.take (lens 0) := by
  induction h with
  | opened => exact ⟨fun c hc => absurd hc List.not_mem_nil, fun c hc => by cases hc⟩
  | @call k off chunks r h' hread hret ih =>
    obtain ⟨hchunks, hfirst⟩ := ih
    obtain rfl := Except.ok.inj hread
    split_ifs at hret ⊢ with hend
    · exact absurd hret (lt_irrefl 0)
    · have htake : text.take (min (lens k) text.length) = text.take (lens k) := by
        rw [← List.take_take, List.take_length]
      have hne : text.take (lens k) ≠ [] := by
        apply List.ne_nil_of_length_pos
        have hpos := hlens k
        rw [List.length_take]
        omega
      constructor
      · intro c hc
        rcases List.mem_append.mp hc with hc | hc
        · exact hchunks c hc
        · obtain rfl := List.mem_singleton.mp hc
          exact ⟨htake ▸ hne, List.take_prefix _ _⟩
      · cases h' with
        | opened => exact fun c hc => (Option.some.inj hc).symm.trans htake
        | call => 
          intro c hc
          refine hfirst c ?_
          rwa [List.head?_append_of_ne_nil _ (List.append_ne_nil_of_right_ne_nil _ (List.cons_ne_nil _ _))] at hc

/-- A text with one headline is read back only by a buffer that takes it whole. -/
theorem shown_readsBack_iff {a b : Char} {h t : List Char} (ha : a ∉ t) (hb : b ∉ a :: h)
    (htext : text = (a :: h) ++ b :: t) (hlens : ∀ k, 0 < lens k) :
    ReadsBack (shown text) lens text ↔ text.length ≤ lens 0 := by
  constructor
  · intro hback
    obtain ⟨k, off, chunks, r, hcalls, hflatten, -⟩ := hback.ends
    obtain ⟨hchunks, hfirst⟩ := calls_shown hlens hcalls
    obtain rfl : chunks = [text] := by
      subst htext
      exact eq_singleton_of_prefixes ha hb hchunks hflatten
    have hwhole := congrArg List.length (hfirst text rfl)
    rw [List.length_take] at hwhole
    omega
  · intro hlarge
    refine (ideal_readsBack hlens).congr fun k off chunks hcalls => ?_
    have hwhole : text.take (lens 0) = text := List.take_of_length_le hlarge
    have hoff : (k = 0 ∧ off = 0) ∨ off = text.length := by
      induction hcalls with
      | opened => exact .inl ⟨rfl, rfl⟩
      | @call k off chunks r _ hread hret ih =>
        obtain rfl := Except.ok.inj hread
        right
        rcases ih with ⟨rfl, rfl⟩ | rfl
        · simp only [List.drop_zero, hwhole, Nat.zero_add]
        · simp at hret
    rw [shown, ideal]
    rcases hoff with ⟨rfl, rfl⟩ | rfl
    · have hpos : ¬ text.length ≤ 0 := by
        subst htext
        simp
      simp only [if_neg hpos, Nat.min_eq_right hlarge, List.take_length, List.drop_zero, hwhole]
    · simp

/-- After a second fiber the offset is ahead of what was delivered. -/
theorem readStats_ahead {l : List FiberStat} {x r : Reply Char} (hoff : 0 < x.off)
    (hchunk : l = [] → x.chunk.length < x.off) (h : readStats P len l x = .ok r) :
    r.ret = 0 ∨ r.chunk.length < r.off := by
  induction l generalizing x with
  | nil =>
    obtain rfl := Except.ok.inj h
    exact .inr (hchunk rfl)
  | cons stat l ih =>
    rw [readStats] at h
    obtain ⟨text, -, h⟩ := bind_eq_ok.mp h
    split_ifs at h with hend
    · obtain rfl := Except.ok.inj h
      exact .inl rfl
    · refine ih ?_ (fun _ => ?_) h
      · simp only
        omega
      · simp only [List.length_take]
        omega

/-- The walk finds one fiber. -/
theorem readFile_single (hP : P.Plain) {name tgid : List Char} {fibId : Nat} {tmpPid : Int} {s : State}
    (hfound : myread name tgid fibId tmpPid s = [stat]) (hlens : ∀ k, 0 < lens k) :
    ReadsBack (readFile P name tgid fibId tmpPid s) lens (P.fiberStat stat) ↔ (P.fiberStat stat).length ≤ lens 0 := by
  have hread : readFile P name tgid fibId tmpPid s = shown (P.fiberStat stat) := by
    funext len off
    rw [readFile, hfound, readStats_single hP]
  have hheadline : headline = '#' :: "#FIBER STATISTICS##".toList := rfl
  have hstop : Char.ofNat 10 ∉ '#' :: "#FIBER STATISTICS##".toList := by decide
  rw [hread]
  exact shown_readsBack_iff (mark_not_mem_figures hP) hstop (by rw [Printer.fiberStat, hheadline]) hlens

/-- The walk finds several. -/
theorem readFile_several (hP : P.Plain) {name tgid : List Char} {fibId : Nat} {tmpPid : Int} {s : State}
    {stat' : FiberStat} {rest : List FiberStat} (hfound : myread name tgid fibId tmpPid s = stat :: stat' :: rest)
    (hlens : ∀ k, 0 < lens k) (htext : text ≠ []) : ¬ ReadsBack (readFile P name tgid fibId tmpPid s) lens text := by
  intro hback
  obtain ⟨r, hread, hret, hoff⟩ := hback.first htext
  have hpos := hlens 0
  have hfirst : 0 < (P.fiberStat stat).length := fiberStat_pos
  rw [readFile, hfound, readStats, sprintf_ok hP] at hread
  simp only [bind, Except.bind] at hread
  rw [if_neg (by omega)] at hread
  rcases readStats_ahead (by simp only; omega) (fun hnil => by cases hnil) hread with hend | hahead
  · omega
  · omega

end text

/-- **When the statistics are read back.** For every fiber that the walk finds and all buffers, calling `myread` until
it returns 0 delivers the text exactly when the walk finds no second fiber and the first buffer takes the whole text. -/
theorem read_back_iff {P : Printer} (hP : P.Plain) {name tgid : List Char} {fibId : Nat} {tmpPid : Int} {s : State}
    {stat : FiberStat} (hfound : stat ∈ myread name tgid fibId tmpPid s) {lens : Nat → Nat} (hlens : ∀ k, 0 < lens k) :
    ReadsBack (readFile P name tgid fibId tmpPid s) lens (P.fiberStat stat) ↔
      (myread name tgid fibId tmpPid s).length = 1 ∧ (P.fiberStat stat).length ≤ lens 0 := by
  have hne : P.fiberStat stat ≠ [] := List.ne_nil_of_length_pos fiberStat_pos
  match hall : myread name tgid fibId tmpPid s with
  | [] =>
    rw [hall] at hfound
    cases hfound
  | [stat'] =>
    rw [hall] at hfound
    obtain rfl := List.mem_singleton.mp hfound
    rw [readFile_single hP hall hlens]
    exact (and_iff_right rfl).symm
  | stat' :: stat'' :: rest =>
    refine iff_of_false (readFile_several hP hall hlens hne) ?_
    rintro ⟨hlength, -⟩
    cases hlength

/-- With one entry for the process there is no second fiber to be found. -/
theorem length_myread_le_one {nFib : Nat} {s : State} (hs : Reached nFib s)
    (hids : (s.processi.map fun b => b.val.id).Nodup) (name tgid : List Char) (fibId : Nat) (tmpPid : Int) :
    (myread name tgid fibId tmpPid s).length ≤ 1 := by
  have hentry : ∀ b ∈ s.processi, ∀ k, (((b.val.listafiber.filter fun f => hashMin f.val.id = hashLong k).filter
      fun f => (f.val.id % 2 ^ 64).toNat = k).map fun f => fiberStat f.val).length ≤ 1 := by
    intro b hb k
    have hkey : (b.val.listafiber.filter fun f => (f.val.id % 2 ^ 64).toNat = k) =
        b.val.listafiber.filter fun f => f.val.id = (k : Int) := by
      refine List.filter_congr fun f hf => ?_
      obtain ⟨hlow, hhigh⟩ := fiberId_bounds hs hb hf
      unfold pidMax at hhigh
      exact decide_eq_decide.mpr (by omega)
    rw [List.length_map]
    refine (List.filter_sublist.filter _).length_le.trans ?_
    rw [hkey]
    exact Table.length_filter_key (fun f : Block Fiber => f.val.id) (reached_inv hs b hb).fiberIds _
  have hentries : (entriesOf (pidOfName tgid tmpPid) s.processi).length ≤ 1 :=
    (List.filter_sublist.filter _).length_le.trans (Table.length_filter_key (fun b : Block Process => b.val.id) hids _)
  rw [myread]
  cases hall : entriesOf (pidOfName tgid tmpPid) s.processi with
  | nil => exact Nat.zero_le 1
  | cons b rest =>
    have hb : b ∈ entriesOf (pidOfName tgid tmpPid) s.processi := by
      rw [hall]
      exact List.mem_cons_self
    rw [hall, List.length_cons] at hentries
    obtain rfl : rest = [] := List.eq_nil_of_length_eq_zero (by omega)
    rw [List.flatMap_singleton]
    exact hentry b (mem_entriesOf.mp hb).1 _

theorem shown_headline {P : Printer} {stat : FiberStat} {off : Nat} (hoff : off < (P.fiberStat stat).length) :
    shown (P.fiberStat stat) 20 off = .ok { ret := 20, off := off + 20, chunk := headline } := by
  have hmin : min 20 (P.fiberStat stat).length = 20 := by
    apply Nat.min_eq_left
    rw [Printer.fiberStat, List.length_append, length_headline]
    omega
  have htake : (P.fiberStat stat).take 20 = headline := by
    rw [Printer.fiberStat, ← length_headline, List.take_left]
  rw [shown, if_neg (by omega), hmin, htake]
  rfl

/-- A pointer as sixteen hexadecimal digits, and an `int` in the lower half of its register. -/
def hexPrinter : Printer where
  pointer x := (List.range 16).map fun i => (x.toNat / 16 ^ (15 - i) % 16).digitChar
  int i := BitVec.ofInt 64 (i % 2 ^ 32)

theorem hexPrinter_plain : hexPrinter.Plain where
  noMark x hmem := by
    obtain ⟨i, -, hi⟩ := List.mem_map.mp hmem
    have hdigits : ∀ d < 16, Nat.digitChar d ≠ '#' := by decide
    exact hdigits _ (Nat.mod_lt _ (by decide)) hi
  short x := by
    simp [hexPrinter]

/-- The fiber that process 1 created second. -/
theorem exists_found : ∃ s, Reached 2 s ∧ myread "f2".toList "1".toList 0 0 s = [⟨false, 16, 1, 0, 0, 0⟩] := by
  exact exists_reached 2 [.fibOpen ⟨1, 1⟩, .fibConvert ⟨1, 1⟩ ⟨0, 5⟩, .fibCreate ⟨1, 1⟩ 16 0 4096 4096]
    (fun s => myread "f2".toList "1".toList 0 0 s) (by decide +kernel)

theorem read_back_found : ∃ s, Reached 2 s ∧ ∃ stat ∈ myread "f2".toList "1".toList 0 0 s,
    ReadsBack (readFile hexPrinter "f2".toList "1".toList 0 0 s) (fun _ => 1024) (hexPrinter.fiberStat stat) := by
  obtain ⟨s, hs, hfound⟩ := exists_found
  have hmem : ⟨false, 16, 1, 0, 0, 0⟩ ∈ myread "f2".toList "1".toList 0 0 s := by
    rw [hfound]
    exact List.mem_singleton_self _
  refine ⟨s, hs, _, hmem, (read_back_iff hexPrinter_plain hmem fun _ => by decide).mpr ⟨by rw [hfound]; rfl, ?_⟩⟩
  decide +kernel

/-- Buffers of 20 bytes get the headline every time. -/
theorem headline_again : ∃ s, Reached 2 s ∧ ∃ stat ∈ myread "f2".toList "1".toList 0 0 s,
    (∃ r r', readFile hexPrinter "f2".toList "1".toList 0 0 s 20 0 = .ok r ∧
      readFile hexPrinter "f2".toList "1".toList 0 0 s 20 r.off = .ok r' ∧ r.chunk = headline ∧ r'.chunk = headline) ∧
    ¬ ReadsBack (readFile hexPrinter "f2".toList "1".toList 0 0 s) (fun _ => 20) (hexPrinter.fiberStat stat) := by
  obtain ⟨s, hs, hfound⟩ := exists_found
  refine ⟨s, hs, ⟨false, 16, 1, 0, 0, 0⟩, ?_, ⟨⟨20, 20, headline⟩, ⟨20, 40, headline⟩, ?_, ?_, rfl, rfl⟩, ?_⟩
  · rw [hfound]
    exact List.mem_singleton_self _
  · rw [readFile, hfound, readStats_single hexPrinter_plain, shown_headline fiberStat_pos]
  · rw [readFile, hfound, readStats_single hexPrinter_plain, shown_headline (by decide +kernel)]
  · rw [readFile_single hexPrinter_plain hfound fun _ => by decide]
    decide +kernel

end LinuxFibers
