import VmSupport.Proofs.BlockAccounts

namespace VmSupport

open EStateM

inductive ArenaOp
  | allocate (l : Layout)
  | allocateOnBlock (l : Layout)
  | exchangeBlock
  | collect

inductive BlockOp (R : Type)
  | openArena
  | dropArena (arena : Nat)
  | onArena (arena : Nat) (roots : R) (op : ArenaOp)
  | request
  | retire (block : Nat)
  | release (block : Nat)

structure BlockOwners (H : Type) where
  heap : Heap
  arenas : List (Option Arena)
  holders : List Nat
  host : H
  released : Nat

namespace BlockOwners

variable {R H : Type}

abbrev Action (H : Type) := EStateM Fault (BlockOwners H)

def live (s : BlockOwners H) : List Arena := s.arenas.filterMap id

def onHeap {α : Type} (op : Heap.Action α) : Action H α := fun s =>
  match op s.heap with
  | .ok a heap => .ok a { s with heap }
  | .error f heap => .error f { s with heap }

def update (s : BlockOwners H) (i : Nat) (m : Mutator R (H × Nat)) : BlockOwners H :=
  { s with
    heap := m.heap
    arenas := s.arenas.set i (some m.arena)
    host := m.host.1
    released := m.host.2 }

def onArena {α : Type} (i : Nat) (roots : R) (op : Mutator.Action R (H × Nat) α) :
    Action H Unit := fun s =>
  match s.arenas[i]? with
  | none => .error (.indexOutOfBounds s.arenas.length i) s
  | some none => .error .dropped s
  | some (some arena) =>
    match op ⟨s.heap, arena, roots, s.host, s.released⟩ with
    | .ok _ m => .ok () (s.update i m)
    | .error f m => .error f (s.update i m)

def openArena : Action H Unit :=
  modify fun s => { s with heap := s.heap.openArena, arenas := s.arenas ++ [some .new] }

def dropArena (i : Nat) : Action H Unit := fun s =>
  match s.arenas[i]? with
  | none => .error (.indexOutOfBounds s.arenas.length i) s
  | some none => .error .dropped s
  | some (some arena) =>
    .ok () { s with heap := s.heap.closeArena arena, arenas := s.arenas.set i none }

def request : Action H Unit := do
  match ← onHeap Heap.requestBlock with
  | some b => modify fun s => { s with holders := b :: s.holders }
  | none => return

def retire (b : Nat) : Action H Unit := do
  if b ∈ (← get).holders then
    onHeap (Heap.retireBlock b)
    modify fun s => { s with holders := s.holders.erase b }

def release (b : Nat) : Action H Unit := do
  onHeap (Heap.releaseBlock b)
  modify fun s => { s with released := s.released + 1 }

variable [RootSet R] (k : ReleasingCollector H)

def performArena : ArenaOp → Mutator.Action R (H × Nat) Unit
  | .allocate l => do let _ ← Mutator.allocate k.tallied l
  | .allocateOnBlock l => do let _ ← Mutator.allocateOnBlock l
  | .exchangeBlock => Mutator.exchangeBlock k.tallied
  | .collect => Mutator.collect k.tallied

def perform : BlockOp R → Action H Unit
  | .openArena => openArena
  | .dropArena i => dropArena i
  | .onArena i roots op => onArena i roots (performArena k op)
  | .request => request
  | .retire b => retire b
  | .release b => release b

/-- One operation after the other; a fault ends the operation and leaves the state as it is then. -/
def run (s : BlockOwners H) : List (BlockOp R) → BlockOwners H
  | [] => s
  | op :: ops => run (perform k op s).state ops

end BlockOwners

namespace BlockOwners

variable {R H : Type} {settings : HeapSettings}

def Accounted (settings : HeapSettings) (s : BlockOwners H) : Prop :=
  s.heap.Accounts settings s.live.length (s.live.flatMap Arena.blocks ++ s.holders) s.released

theorem flatMap_blocks_perm (before after : List Arena) (a : Arena) (held : List Nat) :
    ((before ++ a :: after).flatMap Arena.blocks ++ held).Perm
      (a.blocks ++ ((before ++ after).flatMap Arena.blocks ++ held)) := by
  rw [← List.append_assoc]
  exact (flatMap_middle_perm Arena.blocks before after a).append_right held

theorem onArena_accounted {α : Type} {op : Mutator.Action R (H × Nat) α}
    (h : ∀ arenas others, Keeps (Mutator.Accounted settings arenas others) op) (i : Nat)
    (roots : R) : Keeps (Accounted (H := H) settings) (onArena i roots op) := by
  intro s ha
  unfold onArena
  cases hi : s.arenas[i]? with
  | none => exact ha
  | some slot =>
    cases slot with
    | none => exact ha
    | some a =>
      obtain ⟨before, after, hslots, hset, -⟩ := filterMap_id_set hi
      have hlive : s.live = before ++ a :: after := hslots
      have hview : Mutator.Accounted settings s.live.length
          ((before ++ after).flatMap Arena.blocks ++ s.holders)
          (⟨s.heap, a, roots, s.host, s.released⟩ : Mutator R (H × Nat)) := by
        refine Heap.Accounts.perm ha ?_
        rw [hlive]
        exact (flatMap_blocks_perm before after a s.holders).symm
      have hback : ∀ m : Mutator R (H × Nat), Mutator.Accounted settings s.live.length
          ((before ++ after).flatMap Arena.blocks ++ s.holders) m →
          Accounted settings (s.update i m) := by
        intro m hm
        have hlive' : (s.update i m).live = before ++ m.arena :: after := hset m.arena
        have hlength : (s.update i m).live.length = s.live.length := by
          rw [hlive', hlive, List.length_append, List.length_append, List.length_cons,
            List.length_cons]
        unfold Accounted
        rw [hlength, hlive']
        exact Heap.Accounts.perm hm (flatMap_blocks_perm before after m.arena s.holders)
      have hop := h s.live.length ((before ++ after).flatMap Arena.blocks ++ s.holders) _ hview
      simp only
      cases hr : op ⟨s.heap, a, roots, s.host, s.released⟩ <;>
        · simp only [hr] at hop
          exact hback _ hop

theorem openArena_accounted : Keeps (Accounted (H := H) settings) openArena := by
  intro s ha
  have hlive : ({ s with heap := s.heap.openArena, arenas := s.arenas ++ [some .new] } :
      BlockOwners H).live = s.live ++ [.new] := List.filterMap_append
  change Accounted settings { s with heap := s.heap.openArena, arenas := s.arenas ++ [some .new] }
  unfold Accounted
  rw [hlive, List.length_append, List.flatMap_append]
  refine (Heap.Accounts.openArena ha).perm ?_
  simp [Arena.blocks, Arena.new]

theorem dropArena_accounted (i : Nat) : Keeps (Accounted (H := H) settings) (dropArena i) := by
  intro s ha
  unfold dropArena
  cases hi : s.arenas[i]? with
  | none => exact ha
  | some slot =>
    cases slot with
    | none => exact ha
    | some a =>
      obtain ⟨before, after, hslots, -, hset⟩ := filterMap_id_set hi
      have hlive : s.live = before ++ a :: after := hslots
      have hlive' : ({ s with heap := s.heap.closeArena a, arenas := s.arenas.set i none } :
          BlockOwners H).live = before ++ after := hset
      have hlength : s.live.length = (before ++ after).length + 1 := by
        rw [hlive, List.length_append, List.length_append, List.length_cons, Nat.add_assoc]
      have ha' : s.heap.Accounts settings ((before ++ after).length + 1)
          (a.blocks ++ ((before ++ after).flatMap Arena.blocks ++ s.holders)) s.released := by
        rw [← hlength]
        refine Heap.Accounts.perm ha ?_
        rw [hlive]
        exact (flatMap_blocks_perm before after a s.holders).symm
      change Accounted settings
        { s with heap := s.heap.closeArena a, arenas := s.arenas.set i none }
      unfold Accounted
      rw [hlive']
      exact ha'.closeArena

theorem request_accounted : Keeps (Accounted (H := H) settings) request := by
  intro s ha
  simp only [request, bind, EStateM.bind, onHeap, Heap.requestBlock, get, getThe,
    MonadStateOf.get, EStateM.get]
  cases hfree : s.heap.free with
  | nil => exact ha
  | cons b rest => exact (Heap.Accounts.handOut ha hfree).perm List.perm_middle

theorem retire_accounted (b : Nat) : Keeps (Accounted (H := H) settings) (retire b) := by
  intro s ha
  simp only [retire, bind, EStateM.bind, get, getThe, MonadStateOf.get, EStateM.get]
  by_cases hb : b ∈ s.holders
  · have ha' : s.heap.Accounts settings s.live.length
        (b :: (s.live.flatMap Arena.blocks ++ s.holders.erase b)) s.released := by
      refine Heap.Accounts.perm ha ?_
      refine List.Perm.trans ?_ (List.Perm.append_left _ (List.perm_cons_erase hb).symm)
      exact List.perm_middle.symm
    have hlt := ha'.divided.lt_blockCount List.mem_cons_self
    simp only [hb, ↓reduceIte, EStateM.bind, onHeap, Heap.retireBlock_of_lt hlt]
    exact Heap.Accounts.retire [b] ha'
  · simp only [hb, ↓reduceIte]
    exact ha

theorem release_of_not_mem {s : BlockOwners H} {b : Nat} (hb : b ∉ s.heap.retired) :
    release b s = .error (.releaseOfUnretired b) s := by
  simp only [release, bind, EStateM.bind, onHeap, Heap.releaseBlock_of_not_mem hb]

theorem release_accounted (b : Nat) : Keeps (Accounted (H := H) settings) (release b) := by
  intro s ha
  by_cases hb : b ∈ s.heap.retired
  · simp only [release, bind, EStateM.bind, onHeap, Heap.releaseBlock_of_mem hb]
    exact Heap.Accounts.release ha hb
  · rw [release_of_not_mem hb]
    exact ha

variable [RootSet R] (k : ReleasingCollector H)

theorem perform_accounted (op : BlockOp R) : Keeps (Accounted settings) (perform k op) := by
  cases op with
  | openArena => exact openArena_accounted
  | dropArena i => exact dropArena_accounted i
  | onArena i roots op =>
    refine onArena_accounted (fun arenas others => ?_) i roots
    cases op with
    | allocate l => exact (Mutator.allocate_accounted k l).bind fun _ => Keeps.pure ()
    | allocateOnBlock l => exact (Mutator.allocateOnBlock_accounted l).bind fun _ => Keeps.pure ()
    | exchangeBlock => exact Mutator.exchangeBlock_accounted k
    | collect => exact Mutator.collect_accounted k
  | request => exact request_accounted
  | retire b => exact retire_accounted b
  | release b => exact release_accounted b

theorem run_accounted (ops : List (BlockOp R)) {s : BlockOwners H} (ha : Accounted settings s) :
    Accounted settings (run k s ops) := by
  induction ops generalizing s with
  | nil => exact ha
  | cons op ops ih => exact ih ((perform_accounted k op).state ha)

/-- Whatever happens to a heap, each of its blocks is free, retired, the current block of one live
arena or held outside of the arenas, and it is there once. The heap knows how many arenas are alive
and how many blocks it has handed out, and a release that fails changes nothing. -/
theorem blocks_divided {h : Heap} (hcreate : Heap.create settings = .ok h) (host : H)
    (ops : List (BlockOp R)) :
    let s := run k ⟨h, [], [], host, 0⟩ ops
    (s.heap.free ++ s.heap.retired ++ (s.live.flatMap Arena.blocks ++ s.holders)).Perm
        (List.range settings.blockCount) ∧
      s.heap.arenas = s.live.length ∧
      s.heap.stats.handedOut = settings.blockCount - s.heap.free.length + s.released ∧
      ∀ b, b ∉ s.heap.retired →
        perform (R := R) k (.release b) s = .error (.releaseOfUnretired b) s := by
  intro s
  have ha : Accounted settings s := run_accounted k ops (Heap.Accounts.create hcreate)
  have hcount : s.heap.blockCount = settings.blockCount :=
    congrArg HeapSettings.blockCount ha.settings_eq
  have hdivided := ha.divided
  have hfree := hdivided.length_free_le
  have hhanded := ha.handedOut_eq
  unfold Heap.IsDivided at hdivided
  rw [hcount] at hdivided hfree
  refine ⟨hdivided, ha.arenas_eq, by omega, fun b hb => release_of_not_mem hb⟩

theorem blocks_divided_of_two : ∃ h, Heap.create ⟨8192, 4096, 4096⟩ = .ok h ∧
    let s := run (R := List Value) ReleasingCollector.blocks ⟨h, [], [], (), 0⟩
      [.openArena, .onArena 0 [] .exchangeBlock, .request, .onArena 0 [] .exchangeBlock,
        .retire 1, .release 1, .release 1]
    (s.heap.free ++ s.heap.retired ++ (s.live.flatMap Arena.blocks ++ s.holders)).Perm [0, 1] :=
  ⟨_, rfl, (@blocks_divided _ Unit ⟨8192, 4096, 4096⟩ _ .blocks _ rfl () _).1⟩

end BlockOwners

end VmSupport
