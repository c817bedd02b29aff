import Mathlib.Data.List.Basic

/-!
# Reading a file in pieces

A read takes the length of a buffer and an offset. `ReadsBack` says that calling it until it returns 0 delivers a text,
which `ideal` does for all buffers. A text in which a mark and a stop alternate only once cannot be put together
from several of its own prefixes (`eq_singleton_of_prefixes`), so a read that starts over never delivers it.
-/

namespace Reader

variable {ε α : Type}

/-- The value returned, the offset after the call and what was delivered. -/
structure Reply (α : Type) where
  ret : Int
  off : Nat
  chunk : List α

/-- A call with a buffer of some length, at some offset. -/
abbrev Read (ε α : Type) := Nat → Nat → Except ε (Reply α)

/-- The calls on one open file that return something: how many, the offset after them and what they delivered. -/
inductive Calls (read : Read ε α) (lens : Nat → Nat) : Nat → Nat → List (List α) → Prop
  | opened : Calls read lens 0 0 []
  | call {k off : Nat} {chunks : List (List α)} {r : Reply α} (h : Calls read lens k off chunks)
      (hread : read (lens k) off = .ok r) (hret : 0 < r.ret) : Calls read lens (k + 1) r.off (chunks ++ [r.chunk])

/-- The offset counts what was delivered, no chunk is longer than its buffer, and when a call returns 0 the text
has been delivered. -/
structure ReadsBack (read : Read ε α) (lens : Nat → Nat) (text : List α) : Prop where
  offset : ∀ k off chunks, Calls read lens k off chunks → off = chunks.flatten.length
  fits : ∀ k off chunks r, Calls read lens k off chunks → read (lens k) off = .ok r → r.chunk.length ≤ lens k
  ends : ∃ k off chunks r, Calls read lens k off chunks ∧ chunks.flatten = text ∧ read (lens k) off = .ok r ∧
    r.ret = 0 ∧ r.off = off

variable {read read' : Read ε α} {lens : Nat → Nat} {text : List α}

/-- Only the calls that are made count. -/
theorem ReadsBack.congr (h : ReadsBack read' lens text)
    (hsame : ∀ k off chunks, Calls read' lens k off chunks → read (lens k) off = read' (lens k) off) :
    ReadsBack read lens text := by
  have hcalls : ∀ {k off chunks}, Calls read lens k off chunks → Calls read' lens k off chunks := by
    intro k off chunks hcalls
    induction hcalls with
    | opened => exact .opened
    | call _ hread hret ih => exact .call ih ((hsame _ _ _ ih).symm.trans hread) hret
  have hcalls' : ∀ {k off chunks}, Calls read' lens k off chunks → Calls read lens k off chunks := by
    intro k off chunks hcalls
    induction hcalls with
    | opened => exact .opened
    | call h' hread hret ih => exact .call ih ((hsame _ _ _ h').trans hread) hret
  refine ⟨fun k off chunks hc => h.offset k off chunks (hcalls hc), fun k off chunks r hc hread => ?_, ?_⟩
  · exact h.fits k off chunks r (hcalls hc) ((hsame _ _ _ (hcalls hc)).symm.trans hread)
  · obtain ⟨k, off, chunks, r, hc, htext, hread, hret, hoff⟩ := h.ends
    exact ⟨k, off, chunks, r, hcalls' hc, htext, (hsame _ _ _ hc).trans hread, hret, hoff⟩

/-- The first call of a session that delivers something. -/
theorem ReadsBack.first (h : ReadsBack read lens text) (hne : text ≠ []) :
    ∃ r, read (lens 0) 0 = .ok r ∧ 0 < r.ret ∧ r.off = r.chunk.length := by
  have hfirst : ∀ {k off chunks}, Calls read lens k off chunks → chunks ≠ [] →
      ∃ r, read (lens 0) 0 = .ok r ∧ 0 < r.ret := by
    intro k off chunks hcalls hchunks
    induction hcalls with
    | opened => exact absurd rfl hchunks
    | @call k off chunks r h' hread hret ih =>
      cases h' with
      | opened => exact ⟨r, hread, hret⟩
      | call => exact ih (List.append_ne_nil_of_right_ne_nil _ (List.cons_ne_nil _ _))
  obtain ⟨k, off, chunks, -, hcalls, htext, -⟩ := h.ends
  have hchunks : chunks ≠ [] := by
    rintro rfl
    exact hne htext.symm
  obtain ⟨r, hread, hret⟩ := hfirst hcalls hchunks
  have hoff := h.offset _ _ _ (.call .opened hread hret)
  rw [List.nil_append, List.flatten_singleton] at hoff
  exact ⟨r, hread, hret, hoff⟩

/-! ### The read that goes on where the last one ended -/

def ideal (text : List α) : Read ε α := fun len off =>
  let chunk := (text.drop off).take len
  .ok { ret := chunk.length, off := off + chunk.length, chunk := chunk }

theorem calls_ideal {k off : Nat} {chunks : List (List α)} (h : Calls (ideal (ε := ε) text) lens k off chunks) :
    chunks.flatten = text.take off ∧ off ≤ text.length := by
  induction h with
  | opened => exact ⟨rfl, Nat.zero_le _⟩
  | @call k off chunks r _ hread _ ih =>
    obtain rfl := Except.ok.inj hread
    obtain ⟨hflatten, hoff⟩ := ih
    constructor
    · simp only [List.flatten_append, List.flatten_singleton, hflatten, List.length_take, List.length_drop]
      rw [List.take_add]
      congr 1
      rw [List.take_eq_take_iff, List.length_drop]
      omega
    · simp only [List.length_take, List.length_drop]
      omega

/-- Every call before the end delivers something, so that the end is reached. -/
theorem exists_calls_ideal (hlens : ∀ k, 0 < lens k) (n : Nat) (hn : n ≤ text.length) :
    ∃ k off chunks, Calls (ideal (ε := ε) text) lens k off chunks ∧ n ≤ off := by
  induction n with
  | zero => exact ⟨0, 0, [], .opened, Nat.le_refl 0⟩
  | succ n ih =>
    obtain ⟨k, off, chunks, hcalls, hle⟩ := ih (by omega)
    rcases Nat.lt_or_ge n off with hlt | hge
    · exact ⟨k, off, chunks, hcalls, hlt⟩
    · have hpos := hlens k
      have hchunk : 0 < ((text.drop off).take (lens k)).length := by
        rw [List.length_take, List.length_drop]
        omega
      refine ⟨k + 1, _, _, .call hcalls rfl (Int.natCast_pos.mpr hchunk), ?_⟩
      simp only
      omega

theorem ideal_readsBack (hlens : ∀ k, 0 < lens k) : ReadsBack (ideal (ε := ε) text) lens text := by
  refine ⟨fun k off chunks hc => ?_, fun k off chunks r hc hread => ?_, ?_⟩
  · obtain ⟨hflatten, hoff⟩ := calls_ideal hc
    rw [hflatten, List.length_take, Nat.min_eq_left hoff]
  · obtain rfl := Except.ok.inj hread
    exact List.length_take_le _ _
  · obtain ⟨k, off, chunks, hc, hle⟩ := exists_calls_ideal (ε := ε) hlens text.length (Nat.le_refl _)
    obtain ⟨hflatten, hoff⟩ := calls_ideal hc
    obtain rfl : off = text.length := Nat.le_antisymm hoff hle
    have hnone : (text.drop text.length).take (lens k) = [] := by rw [List.drop_length, List.take_nil]
    refine ⟨k, _, chunks, _, hc, by rw [hflatten, List.take_length], rfl, ?_, ?_⟩
    · simp only [hnone]
      rfl
    · simp only [hnone]
      rfl

/-! ### Texts that several prefixes cannot make up -/

/-- Once the first stop is less than a head away, no prefixes lead up to it. -/
theorem not_flatten_of_prefixes {b : α} {head t : List α} (hb : b ∉ head) {chunks : List (List α)} {s : List α}
    (hs : s.length < head.length) (hstarts : ∀ c ∈ chunks, c <+: head ++ b :: t) :
    chunks.flatten ≠ s ++ b :: t := by
  induction chunks generalizing s with
  | nil =>
    intro hflatten
    exact absurd hflatten.symm (List.append_ne_nil_of_right_ne_nil s (List.cons_ne_nil b t))
  | cons c chunks ih =>
    have hrest : ∀ d ∈ chunks, d <+: head ++ b :: t := fun d hd => hstarts d (List.mem_cons_of_mem _ hd)
    intro hflatten
    rw [List.flatten_cons, List.append_eq_append_iff] at hflatten
    rcases hflatten with ⟨s', rfl, hflatten⟩ | ⟨c', rfl, hflatten⟩
    · refine ih ?_ hrest hflatten
      rw [List.length_append] at hs
      omega
    · cases c' with
      | nil => exact ih (s := []) (by rw [List.length_nil]; omega) hrest hflatten.symm
      | cons x c' =>
        obtain ⟨rfl, -⟩ := List.cons.inj hflatten
        obtain ⟨u, hu⟩ := hstarts _ List.mem_cons_self
        rw [List.append_assoc, List.append_eq_append_iff] at hu
        rcases hu with ⟨a, rfl, ha⟩ | ⟨a, rfl, -⟩
        · cases a with
          | nil =>
            rw [List.append_nil] at hs
            omega
          | cons y a =>
            obtain ⟨rfl, -⟩ := List.cons.inj ha
            exact hb (List.mem_append_right _ List.mem_cons_self)
        · rw [List.length_append] at hs
          omega

/-- **No text of this kind is made up of several of its prefixes.** The second one would have to start with the mark. -/
theorem eq_singleton_of_prefixes {a b : α} {h t : List α} (ha : a ∉ t) (hb : b ∉ a :: h) {chunks : List (List α)}
    (hstarts : ∀ c ∈ chunks, c ≠ [] ∧ c <+: (a :: h) ++ b :: t) (hflatten : chunks.flatten = (a :: h) ++ b :: t) :
    chunks = [(a :: h) ++ b :: t] := by
  cases chunks with
  | nil => cases hflatten
  | cons c chunks =>
    cases chunks with
    | nil =>
      rw [List.flatten_singleton] at hflatten
      rw [hflatten]
    | cons d chunks =>
      exfalso
      have hrest : ∀ c ∈ d :: chunks, c <+: (a :: h) ++ b :: t :=
        fun c hc => (hstarts c (List.mem_cons_of_mem _ hc)).2
      obtain ⟨hne, -⟩ := hstarts c List.mem_cons_self
      have hd : ∃ d', d = a :: d' := by
        obtain ⟨hne', u, hu⟩ := hstarts d (List.mem_cons_of_mem _ List.mem_cons_self)
        cases d with
        | nil => exact absurd rfl hne'
        | cons x d' => exact ⟨d', by rw [(List.cons.inj hu).1]⟩
      obtain ⟨d', rfl⟩ := hd
      rw [List.flatten_cons, List.append_eq_append_iff] at hflatten
      rcases hflatten with ⟨s, hs, hflatten⟩ | ⟨s, rfl, hflatten⟩
      · refine not_flatten_of_prefixes hb ?_ hrest hflatten
        have hlength := congrArg List.length hs
        rw [List.length_append] at hlength
        have hpos := List.length_pos_iff.mpr hne
        omega
      · have hmem : a ∈ b :: t := by
          rw [hflatten]
          exact List.mem_append_right _ List.mem_cons_self
        rcases List.mem_cons.mp hmem with rfl | hmem
        · exact hb List.mem_cons_self
        · exact ha hmem

end Reader
