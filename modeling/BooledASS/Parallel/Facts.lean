import BooledASS.Parallel.Manager
import BooledASS.Parallel.Threads

open List

namespace smt.parallel

open search_tree tree

variable {E M : Type} {I : Interp E M} {F B : Set E} {asms : List E} {G : M → Prop} {cfg : config}

/-- A check of the assumptions `as` is correct for what the context holds. -/
def Correct (I : Interp E M) (T : Set E) (as : List E) : answer E M → Prop
  | .l_true mdl => I.Models mdl T ∧ ∀ e ∈ as, I.holds mdl e
  | .l_false unsat_core => (∀ e ∈ unsat_core, e ∈ as) ∧ I.Core T unsat_core
  | _ => True

/-- The assertions with the formulas that a context was given. -/
def held (F : Set E) (ctx : List E) : Set E := F ∪ {e | e ∈ ctx}

/-- Every check of the step is correct for what the thread was given, and every literal that a context has as a
unit is entailed by it. -/
def Checked (I : Interp E M) (F : Set E) (asms : List E) (s : threads E M) : step E M → Prop
  | .check_cube id r => Correct I (held F (s.workers id).ctx) (asms ++ (s.workers id).cube) r
  | .share_unit id unit => I.Entails (held F (s.workers id).ctx) unit
  | .backbone_unit id backbone => I.Entails (held F (s.backbones id).ctx) backbone
  | .probe_literal id e r => Correct I (held F (s.backbones id).ctx) (asms ++ [e]) r
  | .check_chunk id r => Correct I (held F (s.backbones id).ctx) (asms ++ (s.backbones id).bb_asms) r
  | .trial r =>
    match s.minimizer.loc with
    | .minimizing _ _ mus unknown =>
      ∀ lit rest trial, trial_of I mus unknown = some (lit, rest, trial) → Correct I (held F s.minimizer.ctx) trial r
    | _ => True
  | .sls r => Correct I F [] r
  | _ => True

/-- What is used without a test. At three places a fact is shared or a cube is given up although the core of the
check may also have assumptions, and the local search does not know the assumptions. -/
def Justified [DecidableEq E] (I : Interp E M) (B : Set E) (asms : List E) (G : M → Prop) (cfg : config)
    (s : threads E M) : step E M → Prop
  | .probe_literal _ e (.l_false unsat_core) => e ∈ unsat_core → I.Core B [e]
  | .check_chunk id (.l_false unsat_core) =>
    ∀ a, unsat_core.filter (· ∈ (s.backbones id).bb_asms) = [a] → I.Core B [a]
  | .report id =>
    match (s.workers id).loc with
    | .deciding (.l_false unsat_core) =>
      cfg.ablate_backtracking → ¬ (∀ e ∈ unsat_core, e ∈ asms) → I.Core B (s.workers id).cube
    | _ => True
  | .sls (.l_true mdl) => G mdl
  | _ => True

def AnswerInv (I : Interp E M) (B : Set E) (asms : List E) (G : M → Prop) (cube : List E) : answer E M → Prop
  | .l_true mdl => G mdl
  | .l_false unsat_core => I.Core B unsat_core ∧ ∀ e ∈ unsat_core, e ∈ asms ∨ e ∈ cube
  | _ => True

/-- What is known at each point of `worker::run`. -/
def LocInv (I : Interp E M) (B : Set E) (asms : List E) (G : M → Prop) (t : tree E) (cube : List E) :
    location E M → Prop
  | .checked r | .tested r | .deciding r => AnswerInv I B asms G cube r
  | .backtracked source unsat_core =>
    I.Core B unsat_core ∧ ∀ n, source = some n → FromPath asms t n unsat_core
  | .sharing_conflict unsat_core => I.Core B unsat_core
  | _ => True

structure WorkerInv (I : Interp E M) (B : Set E) (asms : List E) (G : M → Prop) (t : tree E) (w : worker E M) :
    Prop where
  ctx : ∀ e ∈ w.ctx, I.Entails B e
  cube : ∀ n, w.lease.leased_node = some n → ∀ l ∈ w.cube, t.OnPath n l
  loc : LocInv I B asms G t w.cube w.loc

/-- What is known at each point of the minimiser. -/
def MinimizerInv (I : Interp E M) (B : Set E) (asms : List E) (t : tree E) : minimizer_location E → Prop
  | .taken job => I.Core B job.core ∧ FromPath asms t job.source job.core
  | .minimizing source _ mus unknown => I.Core B (mus ++ unknown) ∧ FromPath asms t source (mus ++ unknown)
  | .minimized source _ core => I.Core B core ∧ FromPath asms t source core
  | _ => True

/-- Every fact that is shared, asserted or used as a conflict is entailed by `B`. -/
structure ThreadsInv (I : Interp E M) (B : Set E) (asms : List E) (G : M → Prop) (s : threads E M) : Prop where
  manager : ManagerInv I B asms G s.b
  workers : ∀ id, WorkerInv I B asms G s.b.m_search_tree (s.workers id)
  backbones : ∀ id, ∀ e ∈ (s.backbones id).ctx, I.Entails B e
  minimizer_ctx : ∀ e ∈ s.minimizer.ctx, I.Entails B e
  minimizer : MinimizerInv I B asms s.b.m_search_tree s.minimizer.loc

section Extend

variable {t t' : tree E}

theorem LocInv.ext {cube : List E} {loc : location E M} (h : LocInv I B asms G t cube loc) (hext : Extends t t') :
    LocInv I B asms G t' cube loc := by
  cases loc with
  | backtracked source core => exact ⟨h.1, fun n hn => (h.2 n hn).ext hext⟩
  | _ => exact h

theorem WorkerInv.ext {w : worker E M} (h : WorkerInv I B asms G t w) (hext : Extends t t') :
    WorkerInv I B asms G t' w where
  ctx := h.ctx
  cube n hn l hl := hext.onPath (h.cube n hn l hl)
  loc := h.loc.ext hext

theorem MinimizerInv.ext {loc : minimizer_location E} (h : MinimizerInv I B asms t loc) (hext : Extends t t') :
    MinimizerInv I B asms t' loc := by
  cases loc with
  | taken job => exact ⟨h.1, h.2.ext hext⟩
  | minimizing source size mus unknown => exact ⟨h.1, h.2.ext hext⟩
  | minimized source size core => exact ⟨h.1, h.2.ext hext⟩
  | _ => exact h

end Extend

variable {s s' : threads E M}

theorem ThreadsInv.set_b (h : ThreadsInv I B asms G s) {b : batch_manager E M} (hb : Kept I B asms G s.b b) :
    ThreadsInv I B asms G { s with b } where
  manager := hb.inv
  workers id := (h.workers id).ext hb.ext
  backbones := h.backbones
  minimizer_ctx := h.minimizer_ctx
  minimizer := h.minimizer.ext hb.ext

theorem ThreadsInv.set_worker (h : ThreadsInv I B asms G s) (id : Nat) {w : worker E M}
    (hw : WorkerInv I B asms G s.b.m_search_tree w) : ThreadsInv I B asms G (s.set_worker id w) where
  __ := h
  workers id' := by
    by_cases hid : id' = id
    · subst hid
      simpa [threads.set_worker] using hw
    · simpa [threads.set_worker, hid] using h.workers id'

theorem ThreadsInv.set_backbones (h : ThreadsInv I B asms G s) (id : Nat) {w : backbones_worker E}
    (hw : ∀ e ∈ w.ctx, I.Entails B e) : ThreadsInv I B asms G (s.set_backbones id w) where
  __ := h
  backbones id' := by
    by_cases hid : id' = id
    · subst hid
      simpa [threads.set_backbones] using hw
    · simpa [threads.set_backbones, hid] using h.backbones id'

section Held

variable {ctx : List E} {e : E} {c as : List E}

theorem entails_held (hF : ∀ f ∈ F, I.Entails B f) (hctx : ∀ e ∈ ctx, I.Entails B e) :
    ∀ f ∈ held F ctx, I.Entails B f := fun f hf => hf.elim (hF f) (hctx f)

theorem forall_mem_append {p : E → Prop} (h : ∀ e ∈ c, p e) (h' : ∀ e ∈ as, p e) : ∀ e ∈ c ++ as, p e :=
  fun e he => (mem_append.mp he).elim (h e) (h' e)

theorem forall_mem_ctx_ite {p : E → Prop} {cond : Prop} [Decidable cond] {w w' : backbones_worker E}
    (h : ∀ e ∈ w.ctx, p e) (h' : ∀ e ∈ w'.ctx, p e) : ∀ e ∈ (if cond then w else w').ctx, p e := by
  split
  · exact h
  · exact h'

theorem trial_of_eq {mus unknown rest trial : List E} {lit : E} (h : trial_of I mus unknown = some (lit, rest, trial)) :
    unknown = rest ++ [lit] ∧ trial = mus ++ rest ++ [I.mk_not lit] := by
  obtain ⟨last, hlast, heq⟩ := Option.map_eq_some_iff.mp h
  cases heq
  exact ⟨(dropLast_append_getLast? _ hlast).symm, rfl⟩

end Held

section Steps

variable [DecidableEq E] (hF : ∀ f ∈ F, I.Entails B f)
  (hG : ∀ mdl, I.Models mdl F → (∀ e ∈ asms, I.holds mdl e) → G mdl)

omit [DecidableEq E] in
/-- A model that a check finds satisfies the assertions and the assumptions. -/
theorem good_of_correct {ctx as : List E} (hG : ∀ mdl, I.Models mdl F → (∀ e ∈ asms, I.holds mdl e) → G mdl)
    {mdl : M} (hr : Correct I (held F ctx) (asms ++ as) (.l_true mdl)) : G mdl :=
  hG mdl (hr.1.mono Set.subset_union_left) fun e he => hr.2 e (mem_append_left _ he)

include hF

omit [DecidableEq E] in
/-- A correct answer of a worker's check, as it is kept until it is used. -/
theorem answerInv_check (hG : ∀ mdl, I.Models mdl F → (∀ e ∈ asms, I.holds mdl e) → G mdl) {ctx cube : List E}
    (hctx : ∀ e ∈ ctx, I.Entails B e) {r : answer E M}
    (hr : Correct I (held F ctx) (asms ++ cube) r) (b : batch_manager E M) (canceled : Bool) :
    AnswerInv I B asms G cube (b.check canceled r).1 := by
  cases r with
  | l_true mdl => exact good_of_correct hG hr
  | l_false core =>
    exact ⟨hr.2.cut (entails_held hF hctx), fun e he => mem_append.mp (hr.1 e he)⟩
  | _ => trivial

include hG

variable {a : step E M}

/-- A step of a worker keeps all shared facts entailed, if its check is correct and what it shares without a test is
justified. -/
theorem ThreadsInv.exec_worker (h : ThreadsInv I B asms G s) {id : Nat} (ha : a.thread = .worker id)
    (hchecked : Checked I F asms s a) (hjust : Justified I B asms G cfg s a)
    (hexec : exec_worker I cfg asms s id (s.workers id) a = some s') : ThreadsInv I B asms G s' := by
  have hw := h.workers id
  have hloc := hw.loc
  revert hexec
  fun_cases parallel.exec_worker I cfg asms s id (s.workers id) a <;> rintro ⟨⟩ <;> cases ha
  -- `get_cube`
  case case1 id _ b hb =>
    have hkept := h.manager.get_cube id (s.workers id).is_first_run
    rw [hb] at hkept
    exact (h.set_b hkept).set_worker _ ⟨hw.ctx, by simp, trivial⟩
  case case2 id _ lease b hb =>
    have hkept := h.manager.get_cube id (s.workers id).is_first_run
    rw [hb] at hkept
    refine (h.set_b hkept).set_worker _ ⟨hw.ctx, fun n (hn : lease.leased_node = some n) l hl => ?_, trivial⟩
    rw [hn] at hl
    exact onPath_of_mem_path_cube hl
  -- `collect_shared_clauses`
  case case4 =>
    exact h.set_worker _ ⟨forall_mem_append hw.ctx (h.manager.return_shared_clauses _ _), hw.cube, trivial⟩
  -- `collect_backbone_candidates`, `inc` of a canceled worker, `check_again` and `next_cube`
  case case6 | case7 | case16 | case19 | case35 => exact h.set_worker _ ⟨hw.ctx, hw.cube, trivial⟩
  -- `check_cube`
  case case9 id r _ r' b hb =>
    have hkept := h.manager.check (s.b.m_cancel id > 0) r
    have hanswer := answerInv_check hF hG hw.ctx hchecked s.b (s.b.m_cancel id > 0)
    rw [hb] at hkept hanswer
    exact (h.set_b hkept).set_worker _ ⟨hw.ctx, (hw.ext hkept.ext).cube, hanswer⟩
  -- `lease_canceled` and `inc`
  case case11 => exact h.set_worker _ ⟨hw.ctx, by simp, trivial⟩
  case case12 hr _ | case17 hr _ =>
    rw [hr] at hloc
    exact h.set_worker _ ⟨hw.ctx, hw.cube, hloc⟩
  -- `dec_cancel`
  case case14 =>
    have hkept {m_cancel : Nat → Nat} : Kept I B asms G s.b { s.b with m_cancel } := ⟨{ h.manager with }, .refl _⟩
    exact (h.set_b hkept).set_worker _ ⟨hw.ctx, hw.cube, trivial⟩
  -- `try_split`
  case case22 atom effort rand _ _ =>
    exact (h.set_b (h.manager.try_split _ _ atom effort rand)).set_worker _ ⟨hw.ctx, by simp, trivial⟩
  -- `report`
  case case24 hmdl =>
    rw [hmdl] at hloc
    have hkept := h.manager.set_sat hloc
    exact (h.set_b hkept).set_worker _ ⟨hw.ctx, (hw.ext hkept.ext).cube, trivial⟩
  case case25 hcore hasms =>
    rw [hcore] at hloc
    have hkept := h.manager.set_unsat hloc.1 (by simpa using hasms)
    exact (h.set_b hkept).set_worker _ ⟨hw.ctx, (hw.ext hkept.ext).cube, trivial⟩
  case case26 id core hcore hasms core_to_use =>
    rw [hcore] at hloc
    have hpath : ∀ n, (s.workers id).lease.leased_node = some n → FromPath asms s.b.m_search_tree n core :=
      fun n hn l hl => (hloc.2 l hl).imp_right (hw.cube n hn l)
    have hcore' : I.Core B core_to_use ∧
        ∀ n, (s.workers id).lease.leased_node = some n → FromPath asms s.b.m_search_tree n core_to_use := by
      unfold core_to_use
      split
      next hablate =>
        simp only [Justified, hcore] at hjust
        exact ⟨hjust hablate (by simpa using hasms), fun n hn l hl => .inr (hw.cube n hn l hl)⟩
      next => exact ⟨hloc.1, hpath⟩
    have hkept := h.manager.backtrack cfg id hcore'.1 hcore'.2
    exact (h.set_b hkept).set_worker _
      ⟨hw.ctx, (hw.ext hkept.ext).cube, hloc.1, fun n hn => (hpath n hn).ext hkept.ext⟩
  -- `enqueue`
  case case28 source core hcore b =>
    rw [hcore] at hloc
    have hkept : Kept I B asms G s.b b := by
      unfold b
      split
      · exact h.manager.enqueue_core_minimization cfg hloc.1 hloc.2
      · exact .refl h.manager
    exact (h.set_b hkept).set_worker _ ⟨hw.ctx, by simp, hloc.1⟩
  -- `share_conflict`
  case case30 core hcore b =>
    rw [hcore] at hloc
    have hkept : Kept I B asms G s.b b := by
      unfold b
      split
      · exact h.manager.collect_clause _ (Interp.Core.entails_not_and hloc)
      · exact .refl h.manager
    exact (h.set_b hkept).set_worker _ ⟨hw.ctx, (hw.ext hkept.ext).cube, trivial⟩
  -- `share_unit`
  case case32 =>
    exact h.set_b (h.manager.collect_global_backbone cfg _ (Interp.Entails.cut hchecked (entails_held hF hw.ctx)))

omit [DecidableEq E] hF hG in
theorem check_eq {b b' : batch_manager E M} {canceled : Bool} {r r' : answer E M}
    (h : b.check canceled r = (r', b')) (hne : r' ≠ .l_undef) : r = r' ∧ b' = b := by
  cases r with
  | throws ex => exact absurd (congrArg Prod.fst h).symm hne
  | _ => exact Prod.mk.inj h |>.imp_right Eq.symm

/-- A step of a backbone thread keeps all shared facts entailed. The probe and the chunks share the negation of a
literal, for which the justification is needed. -/
theorem ThreadsInv.exec_backbones (h : ThreadsInv I B asms G s) {id : Nat}
    (ha : a.thread = .backbones id) (hchecked : Checked I F asms s a) (hjust : Justified I B asms G cfg s a)
    (hexec : exec_backbones I cfg s id (s.backbones id) a = some s') : ThreadsInv I B asms G s' := by
  have hctx := h.backbones id
  revert hexec
  fun_cases parallel.exec_backbones I cfg s id (s.backbones id) a <;> rintro ⟨⟩ <;> cases ha
  -- `backbone_collect_shared_clauses`, `backbone_unit` and `next_chunk`
  case case1 => exact h.set_backbones _ (forall_mem_append hctx (h.manager.return_shared_clauses _ _))
  case case2 =>
    exact h.set_b (h.manager.collect_global_backbone cfg _ (Interp.Entails.cut hchecked (entails_held hF hctx)))
  case case7 => exact h.set_backbones _ hctx
  -- `probe_literal`
  case case3 hnot hcheck =>
    obtain ⟨rfl, rfl⟩ := check_eq hcheck nofun
    refine h.set_b (h.manager.set_unsat (hchecked.2.cut (entails_held hF hctx)) fun f hf => ?_)
    refine (mem_append.mp (hchecked.1 f hf)).resolve_right fun hfe => hnot ?_
    exact mem_singleton.mp hfe ▸ hf
  case case4 hmem hcheck =>
    obtain ⟨rfl, rfl⟩ := check_eq hcheck nofun
    have hnot_e := (hjust (not_not.mp hmem)).entails_mk_not
    exact (h.set_b (h.manager.collect_global_backbone cfg _ hnot_e)).set_backbones _
      (Lists.forall_mem_concat hctx hnot_e)
  case case5 hcheck =>
    obtain ⟨rfl, rfl⟩ := check_eq hcheck nofun
    exact h.set_b (h.manager.set_sat (good_of_correct hG hchecked))
  case case6 r _ b hcheck _ _ | case12 r _ b hcheck _ _ =>
    have hkept := h.manager.check false r
    rw [hcheck] at hkept
    exact h.set_b hkept
  -- `check_chunk`
  case case8 core _ hnone hcheck =>
    obtain ⟨rfl, rfl⟩ := check_eq hcheck nofun
    refine (h.set_b (h.manager.set_unsat (hchecked.2.cut (entails_held hF hctx)) fun f hf => ?_)).set_backbones
      _ hctx
    refine (mem_append.mp (hchecked.1 f hf)).resolve_right fun hfe => ?_
    exact absurd (mem_filter.mpr ⟨hf, decide_eq_true hfe⟩) (eq_nil_iff_forall_not_mem.mp hnone f)
  case case9 a hone _ hcheck =>
    obtain ⟨rfl, rfl⟩ := check_eq hcheck nofun
    have hnot_a := (hjust a hone).entails_mk_not
    exact (h.set_b (h.manager.collect_global_backbone cfg _ hnot_a)).set_backbones _
      (forall_mem_ctx_ite (Lists.forall_mem_concat hctx hnot_a) hctx)
  case case10 hcheck =>
    obtain ⟨rfl, rfl⟩ := check_eq hcheck nofun
    exact (h.set_b (.refl h.manager)).set_backbones _ hctx
  case case11 hcheck =>
    obtain ⟨rfl, rfl⟩ := check_eq hcheck nofun
    exact (h.set_b (h.manager.set_sat (good_of_correct hG hchecked))).set_backbones _ hctx

omit hG in
/-- One literal of a core is tried: without it the rest is a core if its negation is needed for the conflict. -/
theorem core_trial {ctx mus unknown unsat_core rest trial : List E} {lit : E}
    (hctx : ∀ e ∈ ctx, I.Entails B e) (h : I.Core B (mus ++ unknown))
    (htrial : trial_of I mus unknown = some (lit, rest, trial))
    (hr : Correct I (held F ctx) trial (.l_false unsat_core)) :
    I.Core B (if I.mk_not lit ∉ unsat_core then unsat_core.filter (· ∈ mus) ++ unsat_core.filter (· ∉ mus)
      else mus ++ rest) ∧
    ∀ e ∈ (if I.mk_not lit ∉ unsat_core then unsat_core.filter (· ∈ mus) ++ unsat_core.filter (· ∉ mus)
      else mus ++ rest), e ∈ mus ++ unknown := by
  obtain ⟨rfl, rfl⟩ := trial_of_eq htrial
  rw [← append_assoc] at h ⊢
  have hcore := hr.2.cut (entails_held hF hctx)
  split
  next hnot =>
    constructor
    · refine hcore.mono fun e he => ?_
      simp only [mem_append, mem_filter, he, true_and, decide_eq_true_eq]
      exact em _
    · intro e he
      have he' : e ∈ unsat_core := by
        simp only [mem_append, mem_filter] at he
        exact he.elim (·.1) (·.1)
      rcases mem_append.mp (hr.1 e he') with he'' | he''
      · exact mem_append_left _ he''
      · exact absurd (mem_singleton.mp he'' ▸ he') hnot
  next =>
    constructor
    · refine .resolve (Interp.complementary_mk_not lit) h hcore (fun e he hne => ?_) fun e he hne => ?_
      · exact (mem_append.mp he).resolve_right fun h => hne (mem_singleton.mp h)
      · exact (mem_append.mp (hr.1 e he)).resolve_right fun h => hne (mem_singleton.mp h)
    · exact fun e => mem_append_left _

omit hF hG [DecidableEq E] in
/-- A literal that is kept stays in the core. -/
theorem core_keep {mus unknown rest trial : List E} {lit : E}
    (htrial : trial_of I mus unknown = some (lit, rest, trial)) (e : E) :
    e ∈ mus ++ [lit] ++ rest ↔ e ∈ mus ++ unknown := by
  obtain ⟨rfl, -⟩ := trial_of_eq htrial
  simp only [mem_append]
  tauto

/-- A step of the minimiser keeps all shared facts entailed. Nothing needs to be justified: each trial is a check of
its own. -/
theorem ThreadsInv.exec_minimizer (h : ThreadsInv I B asms G s) (hchecked : Checked I F asms s a)
    (hexec : exec_minimizer I cfg asms s s.minimizer a = some s') : ThreadsInv I B asms G s' := by
  have hloc := h.minimizer
  -- a literal that is kept
  have hkeep {source size mus unknown lit rest trial} (hmin : s.minimizer.loc = .minimizing source size mus unknown)
      (htrial : trial_of I mus unknown = some (lit, rest, trial)) :
      ThreadsInv I B asms G { s with minimizer.loc := .minimizing source size (mus ++ [lit]) rest } := by
    rw [hmin] at hloc
    exact { h with
      minimizer := ⟨hloc.1.mono fun e he => (core_keep htrial e).mpr he,
        fun e he => hloc.2 e ((core_keep htrial e).mp he)⟩ }
  revert hexec
  fun_cases parallel.exec_minimizer I cfg asms s s.minimizer a <;> intro hexec <;> try cases hexec
  -- `take_job`
  case case1 =>
    obtain ⟨⟨job, b⟩, hjob, rfl⟩ := Option.map_eq_some_iff.mp hexec
    obtain ⟨hkept, hcore, hpath⟩ := h.manager.wait_for_core_min_job hjob
    have hb := h.set_b hkept
    refine { hb with minimizer := ?_ }
    show MinimizerInv I B asms b.m_search_tree (if job.core.length ≤ 1 then .waiting else .taken job)
    split
    · trivial
    · exact ⟨hcore, hpath⟩
  -- `minimizer_collect_shared_clauses`
  case case3 hjob =>
    rw [hjob] at hloc
    exact
      { h with
        minimizer_ctx := forall_mem_append h.minimizer_ctx (h.manager.return_shared_clauses _ _)
        minimizer := hloc }
  -- `trial`
  case case6 hmin _ _ _ htrial _ hasms =>
    simp only [Checked, hmin] at hchecked
    rw [List.isEmpty_iff] at hasms
    have hmdl := hG _ ((hchecked _ _ _ htrial).1.mono Set.subset_union_left) (by simp [hasms])
    exact { h.set_b (h.manager.set_sat hmdl) with minimizer := trivial }
  case case7 hmin _ _ _ htrial _ _ _ | case10 hmin _ _ _ htrial _ _ _ => exact hkeep hmin htrial
  case case8 hmin _ _ _ htrial _ _ hcond | case9 hmin _ _ _ htrial _ _ hcond =>
    simp only [Checked, hmin] at hchecked
    rw [hmin] at hloc
    obtain ⟨hcore, hsub⟩ := core_trial hF h.minimizer_ctx hloc.1 htrial (hchecked _ _ _ htrial)
    simp only [hcond, if_false] at hcore hsub
    exact { h with minimizer := ⟨hcore, fun e he => hloc.2 e (hsub e he)⟩ }
  -- `stop_trials`
  case case12 hmin =>
    rw [hmin] at hloc
    exact { h with minimizer := hloc }
  -- `publish`
  case case14 size _ hmin b =>
    rw [hmin] at hloc
    have hkept : Kept I B asms G s.b b := by
      unfold b
      split
      · exact h.manager.publish_minimized_core cfg size hloc.1 hloc.2
      · exact .refl h.manager
    exact { h.set_b hkept with minimizer := trivial }

omit hF hG in
theorem ThreadsInv.exec_sls (h : ThreadsInv I B asms G s) (hjust : Justified I B asms G cfg s a)
    (hexec : exec_sls s a = some s') : ThreadsInv I B asms G s' := by
  revert hexec
  fun_cases parallel.exec_sls s a <;> rintro ⟨⟩
  case case1 => exact { h.set_b (h.manager.set_sat hjust) with }
  case case3 msg _ => exact { h.set_b (h.manager.set_exception_msg msg) with }
  case case2 | case4 => exact { h with }

theorem ThreadsInv.exec (h : ThreadsInv I B asms G s) (hchecked : Checked I F asms s a)
    (hjust : Justified I B asms G cfg s a) (hexec : exec I cfg asms s a = some s') : ThreadsInv I B asms G s' := by
  revert hexec
  fun_cases parallel.exec I cfg asms s a with
  | case2 _ _ ha => exact h.exec_worker hF hG ha hchecked hjust
  | case4 _ _ ha => exact h.exec_backbones hF hG ha hchecked hjust
  | case6 => exact h.exec_minimizer hF hG hchecked
  | case8 => exact h.exec_sls hjust
  | case1 | case3 | case5 | case7 | case9 => exact nofun

end Steps

theorem ThreadsInv.init : ThreadsInv I B asms G (init : threads E M) where
  manager :=
    { tree := ⟨TreeInv.init 1000, fun q hl => absurd hl (not_closed_init 1000 _)⟩
      trail := by simp [parallel.init]
      global_backbones := by simp [parallel.init]
      jobs := by simp [parallel.init]
      conflicts := by simp [parallel.init]
      running := fun _ => rfl
      unsat := nofun
      sat := nofun }
  workers _ := ⟨by simp [parallel.init], by simp [parallel.init], trivial⟩
  backbones _ := by simp [parallel.init]
  minimizer_ctx := by simp [parallel.init]
  minimizer := trivial

end smt.parallel
