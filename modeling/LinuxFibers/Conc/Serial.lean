import LinuxFibers.Base.Log
import LinuxFibers.Conc.Underway

/-!
# Concurrent switches happen one after another

`Recorded` follows a run together with the calls that have had their effect so far: made one after another
in that order, they lead to the memory in which every exchange is complete. When all calls have returned,
that memory is the memory.
-/

namespace LinuxFibers

open HeapTable LocalActions Runs ThreadLog

/-- The calls that have had their effect, in that order, with the values they return. -/
structure Recorded (cf₀ cf : Config) (a : Shared) (calls : List (Int × Call)) (outs : List (Int × Int)) :
    Prop where
  serial : ∀ x k, ∃ k', serially cf₀.mem.proc.id calls (cf₀.mem.state x k) = .ok (a.state x k', outs)
  id : a.proc.id = cf₀.mem.proc.id
  made : ∀ u, cf₀.todo u = ofThread u calls ++ cf.ahead u
  answered : ∀ u, ofThread u outs = cf.answered u

namespace Recorded

variable {cf₀ cf cf' : Config} {a a' : Shared} {calls : List (Int × Call)} {outs : List (Int × Int)} {t : Int}

theorem start (h : cf₀.Start) : Recorded cf₀ cf₀ cf₀.mem [] [] := by
  refine ⟨fun x k => ⟨k, rfl⟩, rfl, fun u => ?_, fun u => ?_⟩
  · rw [Config.ahead, h.idle]
    rfl
  · rw [Config.answered, h.idle, h.rets]
    rfl

/-- A step records nothing or one call. -/
theorem step (h : Recorded cf₀ cf a calls outs) (ht : cf.Taken t cf') (he : Effect cf t cf' a a') :
    ∃ calls' outs', Recorded cf₀ cf' a' calls' outs' := by
  have hothers : ∀ u, u ≠ t → cf'.ahead u = cf.ahead u ∧ cf'.answered u = cf.answered u := by
    intro u hu
    obtain ⟨hpc, htodo, hrets⟩ := ht.others hu
    rw [Config.ahead, Config.answered, hpc, htodo, hrets]
    exact ⟨rfl, rfl⟩
  cases he with
  | silent hahead hanswered =>
    refine ⟨calls, outs, h.serial, h.id, fun u => ?_, fun u => ?_⟩
    · by_cases hu : u = t
      · rw [h.made, hu, hahead]
      · rw [h.made, (hothers u hu).1]
    · by_cases hu : u = t
      · rw [h.answered, hu, hanswered]
      · rw [h.answered, (hothers u hu).2]
  | @call call ret a' halone hid hahead hanswered =>
    refine ⟨calls ++ [(t, call)], outs ++ [(t, ret)], fun x k => ?_, hid.trans h.id, fun u => ?_, fun u => ?_⟩
    · obtain ⟨k₁, hserial⟩ := h.serial x k
      obtain ⟨k₂, hcall⟩ := halone x k₁
      rw [h.id] at hcall
      exact ⟨k₂, serially_snoc hserial hcall⟩
    · by_cases hu : u = t
      · rw [h.made, hu, hahead, ofThread_snoc_self, List.append_assoc]
        rfl
      · rw [h.made, (hothers u hu).1, ofThread_snoc_ne hu]
    · by_cases hu : u = t
      · rw [hu, ofThread_snoc_self, h.answered, hanswered]
      · rw [ofThread_snoc_ne hu, h.answered, (hothers u hu).2]

end Recorded

/-- Every state of a run is related to a memory with every exchange complete, which the calls recorded
lead to. -/
theorem underway_of_run {cf₀ cf : Config} {tr : List Int} (hstart : cf₀.Start)
    (hrun : Run (· = cf₀) Next cf tr) :
    ∃ a, Underway cf a ∧ ∃ calls outs, Recorded cf₀ cf a calls outs := by
  refine hrun.invariant (P := fun cf _ => ∃ a, Underway cf a ∧ ∃ calls outs, Recorded cf₀ cf a calls outs) ?_ ?_
  · intro cf he
    rw [he]
    exact ⟨cf₀.mem, hstart.underway, [], [], Recorded.start hstart⟩
  · intro cf tr t cf' _ ih hstep
    obtain ⟨a, hunder, calls, outs, hrec⟩ := ih
    have ht := Config.taken hstep
    obtain ⟨a', hunder', heffect⟩ := hunder.step ht
    exact ⟨a', hunder', hrec.step ht heffect⟩

/-! ### No two threads run one fiber -/

def Process.OneThread (p : Process) : Prop :=
  ∀ n ∈ p.listathread, ∀ n' ∈ p.listathread, n.val.runner = n'.val.runner → n = n'

namespace Underway

variable {cf : Config} {a : Shared}

/-- A node's runner is bound to it in the second memory, unless its thread is leaving that fiber. -/
theorem bound_or_leaving (h : Underway cf a) {n : Block Thread} (hn : n ∈ cf.mem.proc.listathread) :
    ∃ r f, n.val.runner = some r ∧ a.proc.listafiber.deref r = some f ∧
      (f.selectedThread = some n.addr ∨
        f.selectedThread = none ∧ ∃ u new rest, cf.pc u = .exchange n.addr r new rest) := by
  have hderef := Table.deref_of_mem (threadAddrs_shape h.wf h.shape) hn
  by_cases howned : ∃ u, Cell.thread n.addr ∈ (cf.pc u).own u
  · obtain ⟨u, hu⟩ := howned
    obtain ⟨thread, old, new, rest, hpc, hi⟩ := Pc.exchange_of_mem_own hu
    obtain rfl := thread_mem_window.mp hi
    have hgood := h.good u
    rw [hpc] at hgood
    obtain ⟨⟨r, hr, hruns⟩, haruns, ⟨f, hf, hfree⟩, -⟩ := hgood
    have hrunner : n.val.runner = some r := by
      have hval := Option.some.inj (hderef.symm.trans hruns)
      rw [hval]
    rcases hr with rfl | rfl
    · exact ⟨r, f, hrunner, hf, .inr ⟨hfree, u, new, rest, hpc⟩⟩
    · obtain ⟨r', g, hr', hg, hsel⟩ := h.wf.runner _ _ haruns
      obtain rfl := Option.some.inj hr'
      exact ⟨r, g, hrunner, hg, .inl hsel⟩
  · have hnode : a.proc.listathread.deref n.addr = cf.mem.proc.listathread.deref n.addr :=
      h.pending.free (.thread n.addr) (not_exists.mp howned)
    obtain ⟨r, f, hr, hf, hsel⟩ := h.wf.runner _ _ (hnode.trans hderef)
    exact ⟨r, f, hr, hf, .inl hsel⟩

theorem oneThread (h : Underway cf a) : cf.mem.proc.OneThread := by
  intro n hn n' hn' he
  apply Table.eq_of_addr (threadAddrs_shape h.wf h.shape) hn hn'
  obtain ⟨r, f, hr, hf, hcase⟩ := h.bound_or_leaving hn
  obtain ⟨r', f', hr', hf', hcase'⟩ := h.bound_or_leaving hn'
  obtain rfl : r = r' := by
    rw [hr, hr'] at he
    exact Option.some.inj he
  obtain rfl : f = f' := Option.some.inj (hf.symm.trans hf')
  rcases hcase with hsel | ⟨hfree, u, new, rest, hpc⟩
  · rcases hcase' with hsel' | ⟨hfree', -⟩
    · exact Option.some.inj (hsel.symm.trans hsel')
    · rw [hsel] at hfree'
      cases hfree'
  · rcases hcase' with hsel' | ⟨-, u', new', rest', hpc'⟩
    · rw [hsel'] at hfree
      cases hfree
    · -- both leave the fiber, so both have locked it
      have hu : u = u' := h.locks.eq_of_holds (x := r) (by simp [hpc, Pc.holds]) (by simp [hpc', Pc.holds])
      subst hu
      rw [hpc] at hpc'
      injection hpc'

/-- When all calls have returned the two memories are one. -/
theorem complete (h : Underway cf a) (hdone : cf.Complete) : a = cf.mem := by
  have hown : ∀ u, (cf.pc u).own u = ∅ := by
    intro u
    rw [(hdone u).1]
    rfl
  exact Shared.ext_get h.wf.fiberAddrs h.wf.threadAddrs (h.pending.quiescent hown)

end Underway

/-- **Concurrent switches are serializable**: at no step do two threads run one fiber, and when all calls have
returned, the tables, the contexts, the registers and the values returned are those of the same calls made
one after another in some order. -/
theorem switches_serializable {cf₀ cf : Config} {tr : List Int} (hstart : cf₀.Start)
    (hrun : Run (· = cf₀) Next cf tr) :
    cf.mem.proc.OneThread ∧ (cf.Complete → ∃ calls outs,
      (∀ t, ofThread t calls = cf₀.todo t) ∧ (∀ t, ofThread t outs = cf.rets t) ∧
      ∀ x k, ∃ k', serially cf₀.mem.proc.id calls (cf₀.mem.state x k) = .ok (cf.mem.state x k', outs)) := by
  obtain ⟨a, hunder, calls, outs, hrec⟩ := underway_of_run hstart hrun
  refine ⟨hunder.oneThread, fun hdone => ?_⟩
  obtain rfl := hunder.complete hdone
  refine ⟨calls, outs, fun t => ?_, fun t => ?_, hrec.serial⟩
  · have hmade := hrec.made t
    have hahead : cf.ahead t = [] := by
      rw [Config.ahead, (hdone t).1, (hdone t).2]
      rfl
    rw [hahead, List.append_nil] at hmade
    exact hmade.symm
  · rw [hrec.answered, Config.answered, (hdone t).1]
    exact List.append_nil _

/-- Two threads ask for one free fiber; the second one waits for its lock and finds it busy. -/
theorem switches_serializable_two : ∃ cf₀ cf, Run (· = cf₀) Next cf
    ([1] ++ List.replicate 5 2 ++ List.replicate 14 1 ++ [2, 1, 2, 1, 2, 1]) ∧
    cf.Complete ∧ cf.rets 1 = [0] ∧ cf.rets 2 = [-1] ∧ cf.mem.proc.OneThread ∧ ∃ calls outs,
      (∀ t, ofThread t calls = cf₀.todo t) ∧ (∀ t, ofThread t outs = cf.rets t) ∧
      ∀ x k, ∃ k', serially cf₀.mem.proc.id calls (cf₀.mem.state x k) = .ok (cf.mem.state x k', outs) := by
  obtain ⟨cf₀, cf, hstart, htodo, hrun, hview⟩ := exists_concurrent 3
    [.fibOpen ⟨1, 1⟩, .fibConvert ⟨1, 1⟩ ⟨0, 5⟩, .fibConvert ⟨1, 2⟩ ⟨0, 6⟩, .fibCreate ⟨1, 1⟩ 16 0 4096 4096]
    (fun t => if t = 1 ∨ t = 2 then [⟨3, ⟨0, 9⟩⟩] else [])
    ([1, 2, 1, 2, 1, 2] ++ List.replicate 14 1 ++ List.replicate 5 2 ++ [1])
    (fun _ _ => true) (fun _ _ => True) (fun _ _ _ _ _ _ _ _ => trivial)
    (fun cf => (cf.done 1, cf.done 2, cf.rets 1, cf.rets 2)) (v := (true, true, [0], [-1])) (by decide)
  simp only [Prod.mk.injEq] at hview
  obtain ⟨hdone₁, hdone₂, hrets₁, hrets₂⟩ := hview
  have hrun := hrun.of_guarded
  have hdone : cf.Complete := by
    intro t
    by_cases h₁ : t = 1
    · rw [h₁]
      exact Config.done_iff.mp hdone₁
    by_cases h₂ : t = 2
    · rw [h₂]
      exact Config.done_iff.mp hdone₂
    apply run_idle hrun (hstart.idle t)
    rw [htodo]
    exact if_neg (not_or.mpr ⟨h₁, h₂⟩)
  obtain ⟨hone, hserial⟩ := switches_serializable hstart hrun
  exact ⟨cf₀, cf, hrun, hdone, hrets₁, hrets₂, hone, hserial hdone⟩

end LinuxFibers
