import VmSupport.Proofs.NeutralIterations

namespace VmSupport

namespace Stress

open Machine Strand

variable {h : Heap} {company : Company h} {env : Embedder Calls} {depth : Nat}
  {S : Supply company env depth} {fluid : FluidId} {more calls n : Nat} {m : Machine Calls}

def Ready (h : Heap) (fluid : FluidId) (calls n : Nat) (m : Machine Calls) : Prop :=
  ∃ origin, origin.context.stack = #[] ∧ Underway h fluid origin [] [] calls n m

theorem Ready.stable : Stable company.terms (Ready h fluid calls) :=
  .exists fun _ => Underway.stable.and

theorem Ready.amid (hm : Ready h fluid calls n m) (hleft : S.Left (more + 1) [] [] m) :
    Amid S fluid m more calls [] [] (requestSizes depth) [] n m ∧ m.context.stack = #[] := by
  obtain ⟨origin, hempty, hm⟩ := hm
  have hstack : m.context.stack = #[] := by
    apply Array.toList_inj.mp
    rw [hm.stack_eq, hempty, List.append_nil]
  have howed : n = calls := hm.owed
  exact ⟨⟨howed ▸ .start hm.seated hm.known, S.turn hleft hstack⟩, hstack⟩

theorem makeFluid_serves {v : Value} (hv : v.isReference = false) :
    Serves company.terms (fun n m => (n = calls ∧ m.Seated h ∧ m.context.stack = #[]) ∧
        S.Left more [] [] m) (lift (makeFluid v))
      (fun fluid n m => Ready h fluid calls n m ∧ S.Left more [] [] m) := by
  refine S.serves (List.forall_mem_nil _) (List.forall_mem_singleton.mpr hv) ?_
    (fun _ => Ready.stable) ?_
  · rintro n m m' ⟨hn, hseated, hstack⟩ hrely
    obtain ⟨hcontext, hu⟩ := company.undisturbed hrely
    exact ⟨hn, ⟨hu.region hseated.1, hcontext ▸ hseated.2⟩, hcontext ▸ hstack⟩
  · rintro n m ⟨rfl, hseated, hstack⟩
    let m' : Machine Calls := { m with vm := { m.vm with fluids := (m.vm.fluids.make v).2 } }
    refine ⟨⟨m.vm.fluids.size⟩, m', 0, rfl, ⟨.makeFluid m v, ?_, rfl⟩, rfl, m', hstack,
      Underway.start hseated ?_⟩
    · exact Array.toList_push ▸ List.prefix_append _ _
    · exact Nat.lt_of_lt_of_eq (Nat.lt_succ_self _) (Array.size_push _).symm

theorem prepare_serves :
    Serves company.terms (fun n m => (n = calls ∧ m.Seated h ∧ m.context.stack = #[]) ∧
        S.Left more [] [] m) Part.prepare
      (fun setup n m => ∃ fluid x y, setup = setupOf fluid x y ∧ Ready h fluid calls n m ∧
        S.Left more [] [] m) := by
  refine (makeFluid_serves (by decide)).bind fun fluid => ?_
  -- the names are interned in the course of an iteration that allocates nothing
  refine Serves.mono (?_ : Serves company.terms (fun n m => ∃ origin, origin.context.stack = #[] ∧
    Amid S fluid origin more calls [] [] [] [] n m) _ _) (fun n m ⟨⟨origin, hempty, hm⟩, hleft⟩ =>
      ⟨origin, hempty, hm, hleft⟩) fun _ _ _ hm => hm
  refine Serves.of_exists fun origin => Serves.of_and fun hempty => ?_
  refine (Amid.intern_serves "x").bind fun x => Serves.of_and ?_
  rintro ⟨x, rfl⟩
  refine (Amid.intern_serves "y").bind fun y => Serves.of_and ?_
  rintro ⟨y, rfl⟩
  have hnew : CallDescriptor.new 2 1 5 .allowOtherKeys =
      .ok ⟨2, 1, 5, .allowOtherKeys, 0, ⟨[]⟩⟩ := rfl
  have hwith : ∀ (entries : List (UInt32 × UInt32)) (id slot : UInt32), slot < 5 →
      CallDescriptor.withKeyword ⟨2, 1, 5, .allowOtherKeys, 0, ⟨entries⟩⟩ (.keyword id) slot =
        .ok ⟨2, 1, 5, .allowOtherKeys, 0, ⟨entries ++ [(id, slot)]⟩⟩ := by
    intro entries id slot hslot
    simp only [CallDescriptor.withKeyword, Value.keywordId?_keyword, hslot, ↓reduceIte]
  rw [hnew]
  refine (liftExcept_serves Amid.stable _).bind fun d => Serves.of_and ?_
  rintro rfl
  rw [hwith [] x 3 (by decide)]
  refine (liftExcept_serves Amid.stable _).bind fun d => Serves.of_and ?_
  rintro rfl
  rw [hwith _ y 4 (by decide)]
  refine (liftExcept_serves Amid.stable _).bind fun d => Serves.of_and ?_
  rintro rfl
  exact Serves.pure Amid.stable fun n m hm => ⟨fluid, x, y, rfl, ⟨origin, hempty, hm.1⟩, hm.2⟩

structure IsDone (count depth : Nat) (r : Summary × List Turn) (n : Nat) : Prop where
  calls_eq : n = count * (2 * (depth / 2))
  total_eq : r.1 = ⟨count * depth, count * depth, count, count * 8⟩
  length_eq : r.2.length = count
  neutral : ∀ t ∈ r.2, t.IsNeutral depth

section Work

variable (hc : env.collector.IsGentle) (henv : env.invoke = applyCounted)
  (hcovers : company.Covers depth 0)

include hc henv hcovers

theorem iterations_serves (x y : UInt32) (count : Nat) (total : Summary) (turns : List Turn) :
    Serves company.terms
      (fun n m => Ready h fluid calls n m ∧ S.Left (more + count) [] [] m)
      (Part.iterations env (setupOf fluid x y) depth count total turns)
      (fun r n m => (n = calls + count * (2 * (depth / 2)) ∧
        r.1 = total.add ⟨count * depth, count * depth, count, count * 8⟩ ∧
        ∃ turned, r.2 = turned ++ turns ∧ turned.length = count ∧
          ∀ t ∈ turned, t.IsNeutral depth) ∧ S.Left more [] [] m) := by
  induction count generalizing calls total turns with
  | zero =>
    refine Serves.pure (S.stable_and Ready.stable) fun n m ⟨⟨_, _, hm⟩, hleft⟩ => ⟨?_, hleft⟩
    have howed := hm.owed
    simp only [Nat.zero_mul]
    exact ⟨howed, rfl, [], rfl, rfl, List.forall_mem_nil _⟩
  | succ count ih =>
    have hread : Serves company.terms
        (fun n m => Ready h fluid calls n m ∧ S.Left (more + count + 1) [] [] m) (lift get)
        (fun before n m => before.context.stack = #[] ∧
          Amid S fluid before (more + count) calls [] [] (requestSizes depth) [] n m) :=
      Serves.read (f := fun m => m) (fun _ => rfl) (S.stable_and Ready.stable)
        (fun _ => Amid.stable.and) fun n m ⟨hm, hleft⟩ => (hm.amid hleft).symm
    refine hread.bind fun before => Serves.of_and fun hempty => ?_
    have hcovers' : company.Covers depth before.context.stack.size := by
      rw [hempty]
      exact hcovers
    refine (Amid.iteration_serves hc henv x y hcovers').bind fun one => ?_
    refine Serves.of_and ?_
    rintro rfl
    refine (get_serves Amid.stable fun n m hm => hm.1.isNeutral depth).bind fun after => ?_
    refine Serves.of_and fun hneutral => ?_
    refine (ih _ _).mono (fun n m hm => ⟨⟨before, hempty, hm.1⟩, hm.2⟩) ?_
    rintro r n m ⟨⟨rfl, hsum, turned, hturns, hlength, hall⟩, hleft⟩
    refine ⟨⟨by ring, ?_, turned ++ [⟨before, ⟨depth, depth, 1, 8⟩, after⟩], ?_, ?_, ?_⟩, hleft⟩
    · rw [hsum]
      simp only [Summary.add, Summary.mk.injEq]
      refine ⟨?_, ?_, ?_, ?_⟩ <;> ring
    · rw [hturns, List.append_assoc]
      rfl
    · rw [List.length_append, hlength]
      rfl
    · exact List.forall_mem_append.mpr ⟨hall, List.forall_mem_singleton.mpr hneutral⟩

theorem work_serves (more count : Nat) :
    Serves company.terms (fun n m => (n = 0 ∧ m.Seated h ∧ m.context.stack = #[]) ∧
        S.Left (more + count) [] [] m) (Part.work env count depth)
      (fun r n m => IsDone count depth r n ∧ S.Left more [] [] m) := by
  refine prepare_serves.bind fun setup => ?_
  refine Serves.of_exists fun fluid => Serves.of_exists fun x => Serves.of_exists fun y => ?_
  refine Serves.of_and ?_
  rintro rfl
  refine (iterations_serves hc henv hcovers x y count {} []).mono (fun _ _ hm => hm) ?_
  rintro r n m ⟨⟨hn, hsum, turned, hturns, hlength, hall⟩, hleft⟩
  rw [List.append_nil] at hturns
  refine ⟨⟨?_, ?_, hturns ▸ hlength, hturns ▸ hall⟩, hleft⟩
  · rw [hn, Nat.zero_add]
  · rw [hsum]
    simp only [Summary.add, Nat.zero_add]

end Work

end Stress

end VmSupport
