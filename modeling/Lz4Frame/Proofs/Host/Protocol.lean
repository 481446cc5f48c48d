import Lz4Frame.Proofs.Host.Threads
import Mathlib.Data.List.Nodup
import Mathlib.Data.List.Perm.Subperm

/-!
# The protocol of the host lock

Threads that visit host code and operate on sessions, in any number and in any order, keep the
protocol: one of them holds the host lock at most, whoever runs host code holds it, and nobody waits
for a session with it in hand.  So they never stand still: as long as one of them has something left
to do, one of them can move.  They do not run in circles either (`World.Orderly.all_done`), so
however they take turns, they come to their end (`host_lock_protocol`).

The invariant is `World.Orderly`: every thread keeps the protocol, what they share is in line with
where they stand, and of the threads that sleep one is awake again as soon as the lock is free.
-/

namespace Lz4Frame.Host

variable {σ : Type}

/-! ## The invariant -/

namespace World

/-- Whether there is a thread `t` with this property. -/
def Has (world : World σ) (t : Nat) (property : Thread σ → Prop) : Prop :=
  ∃ thread, world.threads[t]? = some thread ∧ property thread

/-- Whether thread `t` has taken the host lock and not given it back. -/
def Holds (world : World σ) (t : Nat) : Prop := world.Has t (·.holds = true)

/-- All threads keep the protocol, and what they share is in line with where they stand. -/
structure Orderly (world : World σ) : Prop where
  stands : ∀ t thread, world.threads[t]? = some thread →
    ∃ owned, thread.Stands owned ∧ ∀ session, world.owner session = some t ↔ owned = some session
  owner_lt : ∀ session t, world.owner session = some t → t < world.threads.length
  held : world.lock.held = true ↔ ∃ t, world.Holds t
  exclusive : ∀ t u, world.Holds t → world.Holds u → t = u
  nodup : world.sleepers.Nodup
  asleep : ∀ t ∈ world.sleepers, world.Has t Thread.Acquires
  /-- If the lock is free and threads sleep, one that is awake is about to take it. -/
  woken : world.lock.held = false → world.sleepers ≠ [] →
    ∃ t, t ∉ world.sleepers ∧ world.Has t Thread.Acquires

theorem has_withThread {world : World σ} {t : Nat} {thread : Thread σ} (next : Thread σ)
    (hthread : world.threads[t]? = some thread) (u : Nat) (property : Thread σ → Prop) :
    (world.withThread t next).Has u property
      ↔ if u = t then property next else world.Has u property := by
  have hlt : t < world.threads.length := (List.getElem?_eq_some_iff.mp hthread).1
  unfold Has withThread
  by_cases hsame : u = t
  · subst hsame
    simp [hlt]
  · rw [if_neg hsame, List.getElem?_set_ne (Ne.symm hsame)]

/-- One thread goes on, and the sessions of the others stay as they are. -/
theorem Orderly.stands_set {world : World σ} (h : world.Orderly) {t : Nat} {next : Thread σ}
    {owner : Nat → Option Nat} {owned : Option Nat} (hnext : next.Stands owned)
    (hmine : ∀ session, owner session = some t ↔ owned = some session)
    (hothers : ∀ session u, u ≠ t → (owner session = some u ↔ world.owner session = some u)) :
    ∀ u other, (world.threads.set t next)[u]? = some other →
      ∃ owned, other.Stands owned ∧ ∀ session, owner session = some u ↔ owned = some session := by
  intro u other hother
  by_cases hsame : u = t
  · subst hsame
    obtain rfl : next = other := by
      rw [List.getElem?_set, if_pos rfl] at hother
      split at hother
      · exact Option.some.inj hother
      · cases hother
    exact ⟨owned, hnext, hmine⟩
  · rw [List.getElem?_set_ne (Ne.symm hsame)] at hother
    rcases h.stands u other hother with ⟨owned', hstands, howner⟩
    exact ⟨owned', hstands, fun session => (hothers session u hsame).trans (howner session)⟩

/-! ## Moves -/

/-- A thread that is awake makes its move. -/
theorem advance_isSome {world : World σ} {turn : Turn} {thread : Thread σ}
    (hawake : turn.thread ∉ world.sleepers) (hthread : world.threads[turn.thread]? = some thread) :
    (thread.move world.busy).isSome = true → (world.advance turn).isSome = true := by
  intro hmove
  rcases Option.isSome_iff_exists.mp hmove with ⟨⟨effect, phase, program⟩, heq⟩
  simp [advance, hawake, hthread, heq]

section Effects

variable {world : World σ} (h : world.Orderly) {t : Nat} {thread next : Thread σ}
  (hthread : world.threads[t]? = some thread)
include h hthread

/-- Threads that sleep stay as they are. -/
theorem Orderly.asleep_withThread (hawake : t ∉ world.sleepers) {u : Nat}
    (hu : u ∈ world.sleepers) : (world.withThread t next).Has u Thread.Acquires := by
  rw [has_withThread next hthread, if_neg]
  · exact h.asleep u hu
  · rintro rfl
    exact hawake hu

/-- The host lock is taken. -/
theorem Orderly.take (hawake : t ∉ world.sleepers) {owned : Option Nat}
    (howner : ∀ session, world.owner session = some t ↔ owned = some session)
    (hnext : next.Stands owned) (hholds : next.holds = true) (hfree : world.lock.held = false)
    (log : List (Nat × LockEvent)) :
    Orderly ({ world with lock := world.lock.acquire, log }.withThread t next) := by
  have hnow : ∀ u, Holds ({ world with lock := world.lock.acquire, log }.withThread t next) u
      ↔ u = t := by
    intro u
    refine (has_withThread next hthread u _).trans ?_
    by_cases hsame : u = t
    · simp [hsame, hholds]
    · rw [if_neg hsame]
      refine iff_of_false (fun hu => ?_) hsame
      have := h.held.mpr ⟨u, hu⟩
      simp [hfree] at this
  exact {
    stands := h.stands_set hnext howner fun _ _ _ => Iff.rfl
    owner_lt := by simpa [withThread] using h.owner_lt
    held := ⟨fun _ => ⟨t, (hnow t).mpr rfl⟩, fun _ => rfl⟩
    exclusive := fun u v hu hv => ((hnow u).mp hu).trans ((hnow v).mp hv).symm
    nodup := h.nodup
    asleep := fun u hu => h.asleep_withThread hthread hawake hu
    woken := nofun }

/-- The host lock is held, and the thread goes to sleep. -/
theorem Orderly.sleep (hawake : t ∉ world.sleepers) (hacquires : thread.Acquires)
    (hheld : world.lock.held = true) :
    Orderly { world with sleepers := world.sleepers ++ [t] } where
  stands := h.stands
  owner_lt := h.owner_lt
  held := h.held
  exclusive := h.exclusive
  nodup := by
    refine List.nodup_append.mpr ⟨h.nodup, by simp, ?_⟩
    rintro u hu v hv rfl
    exact hawake (List.mem_singleton.mp hv ▸ hu)
  asleep := fun u hu => by
    rcases List.mem_append.mp hu with hu | hu
    · exact h.asleep u hu
    · obtain rfl := List.mem_singleton.mp hu
      exact ⟨thread, hthread, hacquires⟩
  woken := fun hfree => by simp [hheld] at hfree

/-- The host lock is given back by its holder, and one of the threads that sleep is woken. -/
theorem Orderly.giveBack (hawake : t ∉ world.sleepers) (hholder : thread.holds = true)
    {owned : Option Nat} (howner : ∀ session, world.owner session = some t ↔ owned = some session)
    (hnext : next.Stands owned) (hholds : next.holds = false) (k : Nat)
    (log : List (Nat × LockEvent)) :
    Orderly ({ world with
      lock := world.lock.release
      sleepers := world.sleepers.eraseIdx (k % world.sleepers.length)
      log }.withThread t next) := by
  have hnobody : ∀ u, ¬ (world.withThread t next).Holds u := by
    intro u
    unfold Holds
    rw [has_withThread next hthread]
    split
    · simp [hholds]
    · rename_i hdiff
      exact fun hu => hdiff (h.exclusive u t hu ⟨thread, hthread, hholder⟩)
  exact {
    stands := h.stands_set hnext howner fun _ _ _ => Iff.rfl
    owner_lt := by simpa [withThread] using h.owner_lt
    held := ⟨nofun, fun ⟨u, hu⟩ => absurd hu (hnobody u)⟩
    exclusive := fun u _ hu => absurd hu (hnobody u)
    nodup := h.nodup.sublist (List.eraseIdx_sublist ..)
    asleep := fun u hu => h.asleep_withThread hthread hawake (List.mem_of_mem_eraseIdx hu)
    woken := fun _ hsome => by
      -- the thread that is woken
      have hpos : 0 < world.sleepers.length := by
        refine List.length_pos_iff.mpr fun hnil => hsome ?_
        show world.sleepers.eraseIdx _ = []
        rw [hnil, List.eraseIdx_nil]
      have hlt := Nat.mod_lt k hpos
      refine ⟨world.sleepers[k % world.sleepers.length], ?_,
        h.asleep_withThread hthread hawake (List.getElem_mem hlt)⟩
      intro hagain
      rcases List.mem_eraseIdx_iff_getElem.mp hagain with ⟨i, hi, hdiff, heq⟩
      exact hdiff ((List.Nodup.getElem_inj_iff h.nodup).mp heq) }

/-- A move that has nothing to do with the host lock. -/
theorem Orderly.keep (hquiet : ¬ thread.Acquires) {owner : Nat → Option Nat}
    {owned : Option Nat} (hnext : next.Stands owned) (hholds : next.holds = thread.holds)
    (hmine : ∀ session, owner session = some t ↔ owned = some session)
    (hothers : ∀ session u, u ≠ t → (owner session = some u ↔ world.owner session = some u))
    (content : Nat → σ) :
    Orderly ({ world with owner, content }.withThread t next) := by
  have hlt : t < world.threads.length := (List.getElem?_eq_some_iff.mp hthread).1
  have hsame : ∀ u, Holds ({ world with owner, content }.withThread t next) u
      ↔ world.Holds u := by
    intro u
    refine (has_withThread next hthread u _).trans ?_
    split
    · rename_i heq
      subst heq
      simp [Holds, Has, hthread, hholds]
    · exact Iff.rfl
  have hacquires {u : Nat} (hu : world.Has u Thread.Acquires) :
      Has ({ world with owner, content }.withThread t next) u Thread.Acquires := by
    refine (has_withThread next hthread u _).mpr ?_
    rw [if_neg]
    · exact hu
    · rintro rfl
      rcases hu with ⟨other, hother, hacquires⟩
      rw [hthread, Option.some.injEq] at hother
      exact hquiet (hother ▸ hacquires)
  exact {
    stands := h.stands_set hnext hmine hothers
    owner_lt := fun session u hu => by
      simp only [withThread, List.length_set]
      by_cases hsame : u = t
      · exact hsame ▸ hlt
      · exact h.owner_lt session u ((hothers session u hsame).mp hu)
    held := h.held.trans (exists_congr fun u => (hsame u).symm)
    exclusive := fun u v hu hv => h.exclusive u v ((hsame u).mp hu) ((hsame v).mp hv)
    nodup := h.nodup
    asleep := fun u hu => hacquires (h.asleep u hu)
    woken := fun hfree hsome => by
      rcases h.woken hfree hsome with ⟨u, hawake, hu⟩
      exact ⟨u, hawake, hacquires hu⟩ }

end Effects

/-- Every move keeps the threads in order. -/
theorem Orderly.advance {world next : World σ} {turn : Turn} (h : world.Orderly) :
    world.advance turn = some next → next.Orderly := by
  intro hadvance
  rcases advance_cases hadvance
    with ⟨hawake, thread, effect, phase, program, hthread, hmove, rfl⟩
  rcases h.stands _ _ hthread with ⟨owned, hstands, howner⟩
  rcases hstands.move hmove with ⟨holds, owned', hleads, hnext, -⟩
  have hquiet (hno : ∀ byGate, effect ≠ .take byGate) : ¬ thread.Acquires := by
    rintro ⟨byGate, phase', program', htake⟩
    cases (htake world.busy).symm.trans hmove
    exact hno byGate rfl
  generalize hbefore : thread.holds = before at hleads
  cases hleads with
  | @take byGate =>
      have hacquires : thread.Acquires := hstands.acquires hmove
      cases hlock : world.lock.held with
      | false =>
          rw [perform_take_free hlock]
          exact h.take hthread hawake howner hnext rfl hlock _
      | true =>
          rw [perform_take_held hlock]
          exact h.sleep hthread hawake hacquires hlock
  | giveBack => exact h.giveBack hthread hawake hbefore howner hnext rfl _ _
  | @own session holds free =>
      subst hbefore
      have hnone : world.owner session = none := by simpa [busy] using free
      refine h.keep hthread (hquiet fun _ h => by cases h) hnext rfl (fun other => ?_)
        (fun other u hu => ?_) _
      · have := howner other
        by_cases hsame : other = session
        · simp [updated, hsame]
        · simpa [updated, hsame, Ne.symm hsame] using this
      · by_cases hsame : other = session
        · simp [updated, hsame, hnone, Ne.symm hu]
        · simp [updated, hsame]
  | @disown session =>
      rw [← hbefore] at hnext
      have hmine := (howner session).mpr rfl
      refine h.keep hthread (hquiet fun _ h => by cases h) hnext rfl (fun other => ?_)
        (fun other u hu => ?_) _
      · by_cases hsame : other = session
        · simp [updated, hsame]
        · simpa [updated, hsame, Ne.symm hsame] using howner other
      · by_cases hsame : other = session
        · simp [updated, hsame, hmine, Ne.symm hu]
        · simp [updated, hsame]
  | work =>
      subst hbefore
      exact h.keep hthread (hquiet fun _ h => by cases h) hnext rfl howner (fun _ _ _ => Iff.rfl) _

theorem Orderly.run {world : World σ} (h : world.Orderly) (turns : List Turn) :
    (world.run turns).Orderly := by
  induction turns generalizing world with
  | nil => exact h
  | cons turn turns ih =>
      simp only [World.run]
      cases hadvance : world.advance turn with
      | none => exact ih h
      | some next => exact ih (h.advance hadvance)

/-- All threads in front of their lives. -/
def start (lives : List (List (Operations σ))) (content : Nat → σ) : World σ where
  threads := lives.map fun visits => { program := life visits }
  content

theorem orderly_start (lives : List (List (Operations σ))) (content : Nat → σ) :
    (start lives content).Orderly := by
  have hthread : ∀ (t : Nat) (thread : Thread σ), (start lives content).threads[t]? = some thread →
      thread.holds = false ∧ thread.Stands none := by
    intro t thread h
    simp only [start, List.getElem?_map, Option.map_eq_some_iff] at h
    rcases h with ⟨visits, -, rfl⟩
    exact ⟨rfl, stands_outside (allows_life visits)⟩
  have hnobody : ∀ t, ¬ (start lives content).Holds t := by
    rintro t ⟨thread, hget, hholds⟩
    simp [(hthread t thread hget).1] at hholds
  exact {
    stands := fun t thread h => ⟨none, (hthread t thread h).2, by simp [start]⟩
    owner_lt := nofun
    held := ⟨nofun, fun ⟨t, ht⟩ => absurd ht (hnobody t)⟩
    exclusive := fun t _ ht => absurd ht (hnobody t)
    nodup := List.nodup_nil
    asleep := nofun
    woken := fun _ hsome => absurd rfl hsome }

/-! ## Nobody is stuck -/

/-- Whoever is about to take the host lock, and awake, can move. -/
theorem acquirer_moves {world : World σ} {t : Nat} (hawake : t ∉ world.sleepers)
    (hacquires : world.Has t Thread.Acquires) (wakes : Nat) :
    (world.advance ⟨t, wakes⟩).isSome = true := by
  rcases hacquires with ⟨thread, hthread, byGate, phase, program, hmove⟩
  exact advance_isSome hawake hthread (by rw [hmove]; rfl)

section Progress

variable {world : World σ} (h : world.Orderly)
include h

/-- Whoever is about to take the host lock does not hold it. -/
theorem Orderly.not_holds {t : Nat} : world.Has t Thread.Acquires → ¬ world.Holds t := by
  rintro ⟨thread, hthread, hacquires⟩ ⟨other, hother, hholds⟩
  cases hthread.symm.trans hother
  rcases h.stands t thread hthread with ⟨owned, hstands, -⟩
  simp [hstands.holds_eq_false hacquires] at hholds

/-- Whoever holds the host lock can move. -/
theorem Orderly.holder_moves {t : Nat} (hholds : world.Holds t) (wakes : Nat) :
    (world.advance ⟨t, wakes⟩).isSome = true := by
  have hawake : t ∉ world.sleepers := fun hasleep => h.not_holds (h.asleep t hasleep) hholds
  rcases hholds with ⟨thread, hthread, hholds⟩
  rcases h.stands t thread hthread with ⟨owned, hstands, -⟩
  have hne : thread.program ≠ [] := by
    intro hdone
    simp [hstands.holds_eq_false_iff.mpr (.inl hdone)] at hholds
  rcases hstands.next hne with hacquires | hmoves | ⟨hnot, -⟩
  · simp [hstands.holds_eq_false hacquires] at hholds
  · exact advance_isSome hawake hthread (hmoves _)
  · simp [hnot] at hholds

/-- While the host lock is free and nobody sleeps, a thread that is not done can move, or waits for
a session that another thread has locked. -/
theorem Orderly.free_moves (hnone : world.sleepers = []) {t : Nat} {thread : Thread σ}
    (hthread : world.threads[t]? = some thread) (hne : thread.program ≠ []) :
    (∀ wakes, (world.advance ⟨t, wakes⟩).isSome = true)
      ∨ (∀ session, world.owner session ≠ some t) ∧ ∃ session u, world.owner session = some u := by
  have hawake : t ∉ world.sleepers := by simp [hnone]
  rcases h.stands t thread hthread with ⟨owned, hstands, howner⟩
  rcases hstands.next hne with hacquires | hmoves | ⟨-, rfl, session, hwaits⟩
  · exact .inl (acquirer_moves hawake ⟨thread, hthread, hacquires⟩)
  · exact .inl fun wakes => advance_isSome hawake hthread (hmoves _)
  · cases hbusy : world.owner session with
    | none =>
        refine .inl fun wakes => advance_isSome hawake hthread (hwaits _ ?_)
        simp [busy, hbusy]
    | some u =>
        exact .inr ⟨fun other hother => (nomatch (howner other).mp hother), session, u, hbusy⟩

/-- As long as a thread is not done, some thread can move. -/
theorem Orderly.progress (hleft : ∃ t, world.Has t (·.program ≠ [])) :
    ∃ t, ∀ wakes, (world.advance ⟨t, wakes⟩).isSome = true := by
  cases hlock : world.lock.held with
  | true =>
      rcases h.held.mp hlock with ⟨t, hholds⟩
      exact ⟨t, h.holder_moves hholds⟩
  | false =>
      by_cases hnone : world.sleepers = []
      · rcases hleft with ⟨t, thread, hthread, hne⟩
        rcases h.free_moves hnone hthread hne with hmoves | ⟨-, session, u, howner⟩
        · exact ⟨t, hmoves⟩
        · -- the session's owner does not wait for another session
          have hother := List.getElem?_eq_some_iff.mpr ⟨h.owner_lt _ _ howner, rfl⟩
          rcases h.stands u _ hother with ⟨owned, hstands, howned⟩
          obtain rfl := (howned session).mp howner
          rcases h.free_moves hnone hother hstands.ne_nil with hmoves | ⟨hnot, -⟩
          · exact ⟨u, hmoves⟩
          · exact absurd howner (hnot session)
      · rcases h.woken hlock hnone with ⟨t, hawake, hacquires⟩
        exact ⟨t, acquirer_moves hawake hacquires⟩

end Progress

/-! ## Who gives the lock back, and who returns -/

/-- Only its holder gives the host lock back. -/
theorem Orderly.release_holds {world next : World σ} {turn : Turn} (h : world.Orderly)
    (hadvance : world.advance turn = some next) :
    world.lock.releases ≠ next.lock.releases → world.Holds turn.thread := by
  intro hreleased
  rcases advance_cases hadvance with ⟨-, thread, effect, phase, program, hthread, hmove, rfl⟩
  rcases h.stands _ _ hthread with ⟨owned, hstands, -⟩
  rcases hstands.move hmove with ⟨holds, owned', hleads, -⟩
  generalize hbefore : thread.holds = before at hleads
  cases hleads with
  | giveBack => exact ⟨thread, hthread, hbefore⟩
  | take =>
      refine absurd ?_ hreleased
      cases hlock : world.lock.held with
      | false => rw [perform_take_free hlock]; rfl
      | true => rw [perform_take_held hlock]
  | own => exact absurd rfl hreleased
  | disown => exact absurd rfl hreleased
  | work => exact absurd rfl hreleased

/-- A thread that unlocks its session holds the host lock, and has no session locked any more. -/
theorem Orderly.unlock_returns {world next : World σ} {turn : Turn} (h : world.Orderly)
    (hadvance : world.advance turn = some next) {session : Nat} {rest : List (Instruction σ)} :
    world.Has turn.thread (·.program = .unlock session :: rest) →
      next.Has turn.thread (fun thread => thread = ⟨.ready, true, rest⟩)
        ∧ ∀ other, next.owner other ≠ some turn.thread := by
  rintro ⟨thread, hthread, hprogram⟩
  rcases advance_cases hadvance with ⟨-, _, effect, phase, program, hsame, hmove, rfl⟩
  cases hthread.symm.trans hsame
  rcases h.stands _ _ hthread with ⟨owned, hstands, howner⟩
  rcases hstands.move hmove with ⟨holds, owned', hleads, -⟩
  have heffect : thread.move world.busy = some (.disown session, .ready, rest) := by
    simp [Thread.move, hprogram]
  cases heffect.symm.trans hmove
  generalize hbefore : thread.holds = before at hleads
  cases hleads
  refine ⟨(has_withThread _ hthread _ _).mpr ?_, fun other hother => ?_⟩
  · simp [hbefore]
  · by_cases hsession : other = session
    · simp [perform, withThread, updated, hsession] at hother
    · have hmine : world.owner other = some turn.thread := by
        simpa [perform, withThread, updated, hsession] using hother
      exact hsession (Option.some.inj ((howner other).mp hmine)).symm

/-! ## Nobody runs in circles -/

/-- How many moves some threads have left at most, other than falling asleep. -/
def movesLeft : List (Thread σ) → Nat
  | [] => 0
  | thread :: rest => thread.left + movesLeft rest

/-- How many moves all threads have left at most.  A move wakes one thread at most, which may then
fall asleep once. -/
def left (world : World σ) : Nat :=
  2 * movesLeft world.threads + (world.threads.length - world.sleepers.length)

theorem movesLeft_set {threads : List (Thread σ)} {t : Nat} {thread : Thread σ}
    (next : Thread σ) :
    threads[t]? = some thread →
      movesLeft (threads.set t next) + thread.left = movesLeft threads + next.left := by
  intro h
  induction threads generalizing t with
  | nil => simp at h
  | cons head threads ih =>
      cases t with
      | zero =>
          obtain rfl : head = thread := by simpa using h
          simp only [List.set_cons_zero, movesLeft]
          omega
      | succ t =>
          have := ih (t := t) (by simpa using h)
          simp only [List.set_cons_succ, movesLeft]
          omega

theorem left_lt {world next : World σ} {t : Nat} {thread thread' : Thread σ}
    (hthread : world.threads[t]? = some thread) (hless : thread'.left < thread.left)
    (hthreads : next.threads = world.threads.set t thread') :
    world.sleepers.length ≤ next.sleepers.length + 1 → next.left < world.left := by
  intro hwoken
  have := movesLeft_set thread' hthread
  simp only [left, hthreads, List.length_set]
  omega

theorem Orderly.sleepers_le {world : World σ} (h : world.Orderly) :
    world.sleepers.length ≤ world.threads.length := by
  have hsub : world.sleepers ⊆ List.range world.threads.length := by
    intro t ht
    rcases h.asleep t ht with ⟨thread, hthread, -⟩
    exact List.mem_range.mpr (List.getElem?_eq_some_iff.mp hthread).1
  simpa using (List.subperm_of_subset h.nodup hsub).length_le

/-- Every move leaves fewer. -/
theorem Orderly.advance_left {world next : World σ} {turn : Turn} (h : world.Orderly)
    (hadvance : world.advance turn = some next) : next.left < world.left := by
  have hle := (h.advance hadvance).sleepers_le
  rcases advance_cases hadvance with ⟨-, thread, effect, phase, program, hthread, hmove, rfl⟩
  rcases h.stands _ _ hthread with ⟨owned, hstands, -⟩
  rcases hstands.move hmove with ⟨holds, owned', -, -, hfewer⟩
  have hless (now : Bool) : Thread.left ⟨phase, now, program⟩ < thread.left := hfewer
  cases effect with
  | take byGate =>
      cases hlock : world.lock.held with
      | false =>
          rw [perform_take_free hlock]
          exact left_lt hthread (hless true) rfl (Nat.le_succ _)
      | true =>
          rw [perform_take_held hlock] at hle ⊢
          simp only [List.length_append, List.length_singleton] at hle
          simp only [left, List.length_append, List.length_singleton]
          omega
  | giveBack byGate =>
      refine left_lt hthread (hless false) rfl ?_
      simp only [perform, withThread, List.length_eraseIdx]
      split <;> omega
  | own session => exact left_lt hthread (hless thread.holds) rfl (Nat.le_succ _)
  | disown session => exact left_lt hthread (hless thread.holds) rfl (Nat.le_succ _)
  | work session change => exact left_lt hthread (hless thread.holds) rfl (Nat.le_succ _)

/-- Follows a schedule in which each turn is a move. -/
def follow (world : World σ) : List Turn → Option (World σ)
  | [] => some world
  | turn :: turns =>
      match world.advance turn with
      | none => none
      | some next => next.follow turns

/-- However threads take turns, their moves come to an end; and as long as they have not, the
threads can go on until all of them are done. -/
theorem Orderly.all_done {world : World σ} (h : world.Orderly) :
    (∀ turns last, world.follow turns = some last → turns.length ≤ world.left)
      ∧ ∃ turns last, world.follow turns = some last
        ∧ ∀ t, ¬ last.Has t (·.program ≠ []) := by
  -- every move leaves fewer
  induction hleft : world.left using Nat.strongRecOn generalizing world with
  | ind left ih =>
      subst hleft
      refine ⟨fun turns last hfollow => ?_, ?_⟩
      · cases turns with
        | nil => exact Nat.zero_le _
        | cons turn turns =>
            simp only [follow] at hfollow
            split at hfollow
            · cases hfollow
            · rename_i next hadvance
              have hless := h.advance_left hadvance
              have := (ih _ hless (h.advance hadvance) rfl).1 turns last hfollow
              simp only [List.length_cons]
              omega
      · by_cases hsome : ∃ t, world.Has t (·.program ≠ [])
        · rcases h.progress hsome with ⟨t, hmoves⟩
          rcases Option.isSome_iff_exists.mp (hmoves 0) with ⟨next, hadvance⟩
          rcases (ih _ (h.advance_left hadvance) (h.advance hadvance) rfl).2
            with ⟨turns, last, hfollow, hdone⟩
          exact ⟨⟨t, 0⟩ :: turns, last, by simp [follow, hadvance, hfollow], hdone⟩
        · exact ⟨[], world, rfl, fun t ht => hsome ⟨t, ht⟩⟩

end World

/-! ## Everything together -/

/-- Threads that visit host code and operate on sessions, in whatever order they take turns: one of
them holds the host lock at most, and the lock is held just as long as one does; only its holder
gives it back; a thread that is not done is without it only while it waits for it or for a session,
or makes a call that gave it back; nobody waits with it in hand, for a session or otherwise; a
thread that comes back from an operation holds it and has no session locked; and as long as a thread
is not done, some thread can move.  From there on the moves of all threads together come to an end,
and the threads can go on until all of them are done. -/
theorem host_lock_protocol (lives : List (List (Operations σ))) (content : Nat → σ)
    (turns : List Turn) :
    let world := (World.start lives content).run turns
    (∀ t u, world.Holds t → world.Holds u → t = u)
      ∧ (world.lock.held = true ↔ ∃ t, world.Holds t)
      ∧ (∀ turn next, world.advance turn = some next →
        world.lock.releases ≠ next.lock.releases → world.Holds turn.thread)
      ∧ (∀ (t : Nat) (thread : Thread σ), world.threads[t]? = some thread →
        (thread.holds = false ↔ thread.program = [] ∨ thread.Acquires
          ∨ (∃ session rest, thread.phase = .waiting ∧ thread.program = .lock session :: rest)
          ∨ ∃ session work rest,
            thread.phase = .calling ∧ thread.program = .call session true work :: rest)
        ∧ (thread.phase = .waiting → thread.holds = false))
      ∧ (∀ t, world.Holds t → ∀ wakes, (world.advance ⟨t, wakes⟩).isSome = true)
      ∧ (∀ turn next session rest, world.advance turn = some next →
        world.Has turn.thread (·.program = .unlock session :: rest) →
          next.Has turn.thread (fun thread => thread = ⟨.ready, true, rest⟩)
          ∧ ∀ other, next.owner other ≠ some turn.thread)
      ∧ ((∃ t, world.Has t (·.program ≠ [])) →
        ∃ t, ∀ wakes, (world.advance ⟨t, wakes⟩).isSome = true)
      ∧ (∀ moves last, world.follow moves = some last → moves.length ≤ world.left)
      ∧ ∃ moves last, world.follow moves = some last ∧ ∀ t, ¬ last.Has t (·.program ≠ []) := by
  intro world
  have h : world.Orderly := (World.orderly_start lives content).run turns
  refine ⟨h.exclusive, h.held, fun turn next => h.release_holds, fun t thread hthread => ?_,
    fun t => h.holder_moves, fun turn next session rest hadvance => h.unlock_returns hadvance,
    h.progress, h.all_done⟩
  rcases h.stands t thread hthread with ⟨owned, hstands, -⟩
  exact ⟨hstands.holds_eq_false_iff, hstands.waiting_holds⟩

end Lz4Frame.Host
