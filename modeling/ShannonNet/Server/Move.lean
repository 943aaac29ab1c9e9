import ShannonNet.Server.Pool

namespace ShannonNet.Server.Move

open Library.Runs Library.Bitset Library.Buffer GetData

variable {cfg : Config} {dir : ℕ → Bool} {ι : Type} {req : ι → Request cfg} {node : ℕ} {W : Bytes}

/-- Past the check of `move`, and the validity zset does not show it yet. -/
def BeforeZadd : Pc → Prop
  | .moveRead _ => True
  | .moveOpen _ _ => True
  | .moveWrite _ _ => True
  | .moveZadd _ => True
  | _ => False

def Writing : Pc → Prop
  | .moveWrite _ _ => True
  | _ => False

/-- The check of `move` lets a request in only when no other one is between this check and the
entry that would stop it. -/
def Exclusive (req : ι → Request cfg) (p : Pool ι) (i : ι) : Prop :=
  ∀ data, p.request i = .isValid data → (p.slot.valid (req i).nodeId).getD 0 = 0 →
    ∀ j, ¬BeforeZadd (p.request j)

def NeverClobbered (node : ℕ) (W : Bytes) (p : Pool ι) : Prop :=
  p.entered.length ≤ 1 ∧ ((∀ j, ¬Writing (p.request j)) →
    ∀ file, p.slot.secret (.server, node) = some file → file = W)

structure Initial (node : ℕ) (W : Bytes) (p : Pool ι) : Prop where
  request : ∀ i, p.request i = .createTime
  entered : p.entered = []
  waiting : p.slot.waiting = some W
  secret : p.slot.secret (.server, node) = none
  valid : p.slot.valid node = none

def Untouched (node : ℕ) (W : Bytes) (s : Slot) : Prop :=
  s.waiting = some W ∧ s.secret (.server, node) = none ∧ (s.valid node).getD 0 = 0

/-- The stores around the one request that entered `move`. -/
def MoverAt (node : ℕ) (W : Bytes) (s : Slot) : Pc → Prop
  | .moveRead _ => Untouched node W s
  | .moveOpen _ moveBufferVec => moveBufferVec = W ∧ Untouched node W s
  | .moveWrite _ moveBufferVec => moveBufferVec = W ∧ s.secret (.server, node) = some []
  | .moveZadd _ => s.secret (.server, node) = some W
  | .moveRemove _ => s.secret (.server, node) = some W ∧ (s.valid node).getD 0 ≠ 0
  | .done _ => s.secret (.server, node) = some W ∧ (s.valid node).getD 0 ≠ 0
  | _ => False

def Invariant (node : ℕ) (W : Bytes) (p : Pool ι) : Prop :=
  (p.entered = [] ∧ Untouched node W p.slot ∧ ∀ j, ¬(p.request j).InMove) ∨
  ∃ m, p.entered = [m] ∧ MoverAt node W p.slot (p.request m) ∧ ∀ j ≠ m, ¬(p.request j).InMove

theorem Initial.invariant {p : Pool ι} (h : Initial node W p) : Invariant node W p :=
  .inl ⟨h.entered, ⟨h.waiting, h.secret, by rw [h.valid]; rfl⟩, fun j ↦ by rw [h.request]; exact id⟩

theorem MoverAt.frame {s s' : Slot} {pc : Pc} (h : MoverAt node W s pc)
    (hwaiting : s'.waiting = s.waiting)
    (hsecret : s'.secret (.server, node) = s.secret (.server, node))
    (hvalid : s'.valid node = s.valid node) : MoverAt node W s' pc := by
  unfold MoverAt Untouched at *
  simpa only [hwaiting, hsecret, hvalid] using h

theorem Invariant.frame {p : Pool ι} (h : Invariant node W p) {s : Slot}
    (hwaiting : s.waiting = p.slot.waiting)
    (hsecret : s.secret (.server, node) = p.slot.secret (.server, node))
    (hvalid : s.valid node = p.slot.valid node) : Invariant node W { p with slot := s } := by
  rcases h with ⟨hent, huntouched, hout⟩ | ⟨m, hent, hmover, hout⟩
  · refine .inl ⟨hent, ?_, hout⟩
    simpa only [Untouched, hwaiting, hsecret, hvalid] using huntouched
  · exact .inr ⟨m, hent, hmover.frame hwaiting hsecret hvalid, hout⟩

theorem Invariant.frame_of_done {p : Pool ι} (h : Invariant node W p)
    (hdone : ∀ i, ∃ res, p.request i = .done res) {s : Slot}
    (hfile : p.slot.secret (.server, node) = some W)
    (hsecret : s.secret (.server, node) = p.slot.secret (.server, node))
    (hvalid : (s.valid node).getD 0 ≠ 0) : Invariant node W { p with slot := s } := by
  rcases h with ⟨-, huntouched, -⟩ | ⟨m, hent, -, hout⟩
  · rw [huntouched.2.1] at hfile
    cases hfile
  · obtain ⟨res, hres⟩ := hdone m
    refine .inr ⟨m, hent, ?_, hout⟩
    dsimp only
    rw [hres]
    exact ⟨hsecret.trans hfile, hvalid⟩

theorem MoverAt.valid_ne {s : Slot} {pc : Pc} (h : MoverAt node W s pc) (hpc : ¬BeforeZadd pc) :
    (s.valid node).getD 0 ≠ 0 := by
  cases pc with
  | moveRemove data => exact h.2
  | done res => exact h.2
  | moveRead data => exact absurd trivial hpc
  | moveOpen data moveBufferVec => exact absurd trivial hpc
  | moveWrite data moveBufferVec => exact absurd trivial hpc
  | moveZadd data => exact absurd trivial hpc
  | _ => exact h.elim

theorem MoverAt.step {r : Request cfg} {s s' : Slot} {pc pc' : Pc} (h : MoverAt node W s pc)
    (hnode : r.nodeId = node) (hdir : dir node = true) (hW : W.length = cfg.secretASize)
    (hstep : pc.step dir r s = some (pc', s')) :
    MoverAt node W s' pc' ∧ pc'.isMoveRead = false := by
  subst hnode
  cases pc with
  | moveRead data =>
    cases hstep
    refine ⟨⟨?_, h⟩, rfl⟩
    rw [h.1, Option.getD_some, load_self hW]
  | moveOpen data moveBufferVec =>
    cases hstep
    rw [if_pos hdir]
    exact ⟨⟨h.1, Function.update_self _ _ _⟩, rfl⟩
  | moveWrite data moveBufferVec =>
    cases hstep
    refine ⟨?_, rfl⟩
    simp only [MoverAt, Function.update_self, h.2, Option.map_some, overlay_nil, h.1]
  | moveZadd data =>
    cases hstep
    exact ⟨⟨h, by simp [Utils.nodeSecretInvalid]⟩, rfl⟩
  | moveRemove data =>
    cases hstep
    exact ⟨h, rfl⟩
  | done res => exact absurd hstep (by simp [Pc.step])
  | _ => exact h.elim

variable [DecidableEq ι]

theorem invariant_step {p q : Pool ι} {i : ι} (hp : Invariant node W p)
    (hnode : ∀ i, (req i).nodeId = node) (hdir : dir node = true) (hW : W.length = cfg.secretASize)
    (hexcl : Exclusive req p i) (h : p.step dir req i = some q) : Invariant node W q := by
  obtain ⟨pc', s', hstep, rfl⟩ := Pool.step_cases dir req h
  have houtside {m : ι} (hm : ∀ j ≠ m, ¬(p.request j).InMove) (hi : i ≠ m → ¬pc'.InMove) :
      ∀ j ≠ m, ¬(Function.update p.request i pc' j).InMove := by
    intro j hj
    by_cases hji : j = i
    · subst hji
      rw [Function.update_self]
      exact hi hj
    · rw [Function.update_of_ne hji]
      exact hm j hj
  rcases hp with ⟨hent, huntouched, hout⟩ | ⟨m, hent, hmover, hout⟩
  · obtain ⟨hslot, hin⟩ := Pc.step_frame hstep (hout i)
    have huntouched' : Untouched node W s' := by
      rw [hslot]
      exact huntouched
    by_cases henter : pc'.isMoveRead = true
    · refine .inr ⟨i, by rw [if_pos henter, hent], ?_,
        houtside (fun j _ ↦ hout j) fun hi ↦ absurd rfl hi⟩
      simp only [Function.update_self]
      cases pc' with
      | moveRead data => exact huntouched'
      | _ => exact absurd henter (by simp [Pc.isMoveRead])
    · have hin' : ¬pc'.InMove := fun h ↦ by
        obtain ⟨data, -, rfl, -⟩ := hin h
        exact henter rfl
      refine .inl ⟨by rw [if_neg henter, hent], huntouched', ?_⟩
      intro j
      by_cases hji : j = i
      · subst hji
        simpa only [Function.update_self] using hin'
      · simpa only [Function.update_of_ne hji] using hout j
  · by_cases him : i = m
    · subst him
      obtain ⟨hmover', henter⟩ := hmover.step (hnode i) hdir hW hstep
      refine .inr ⟨i, by simpa [henter] using hent, ?_, houtside hout fun hi ↦ absurd rfl hi⟩
      simpa only [Function.update_self] using hmover'
    · obtain ⟨hslot, hin⟩ := Pc.step_frame hstep (hout i him)
      have hin' : ¬pc'.InMove := fun h ↦ by
        obtain ⟨data, hpc, -, hv⟩ := hin h
        have hbefore := hexcl data hpc hv m
        rw [hnode i] at hv
        exact hmover.valid_ne hbefore hv
      have henter : pc'.isMoveRead = false := by
        cases pc' with
        | moveRead data => exact absurd trivial hin'
        | _ => rfl
      refine .inr ⟨m, by simpa [henter] using hent, ?_, houtside hout fun _ ↦ hin'⟩
      simpa only [Function.update_of_ne (Ne.symm him)] using
        hmover.frame (by rw [hslot]) (by rw [hslot]) (by rw [hslot])

omit [DecidableEq ι] in
theorem Invariant.neverClobbered {p : Pool ι} (h : Invariant node W p) :
    NeverClobbered node W p := by
  rcases h with ⟨hent, huntouched, -⟩ | ⟨m, hent, hmover, -⟩
  · refine ⟨by rw [hent]; exact Nat.zero_le _, ?_⟩
    intro _ file hfile
    rw [huntouched.2.1] at hfile
    exact absurd hfile (by simp)
  · refine ⟨by rw [hent]; exact le_rfl, ?_⟩
    intro hwriting file hfile
    have hw := hwriting m
    cases hpc : p.request m with
    | moveRead data =>
      rw [hpc] at hmover
      rw [hmover.2.1] at hfile
      exact absurd hfile (by simp)
    | moveOpen data moveBufferVec =>
      rw [hpc] at hmover
      rw [hmover.2.2.1] at hfile
      exact absurd hfile (by simp)
    | moveWrite data moveBufferVec =>
      rw [hpc] at hw
      exact absurd trivial hw
    | moveZadd data =>
      rw [hpc] at hmover
      exact Option.some.inj (hfile.symm.trans hmover)
    | moveRemove data =>
      rw [hpc] at hmover
      exact Option.some.inj (hfile.symm.trans hmover.1)
    | done res =>
      rw [hpc] at hmover
      exact Option.some.inj (hfile.symm.trans hmover.1)
    | _ =>
      rw [hpc] at hmover
      exact hmover.elim

/-- While the check of `move` never passes during another request's copy, the secret file never
holds anything but the waiting secret, and `move` runs at most once. -/
theorem never_clobbered (req : ι → Request cfg) (hnode : ∀ i, (req i).nodeId = node)
    (hdir : dir node = true) (hW : W.length = cfg.secretASize) {p q : Pool ι}
    (hinit : Initial node W p) (hrun : Reachable (Pool.step dir req) (Exclusive req) p q) :
    NeverClobbered node W q :=
  (hrun.invariant hinit.invariant fun _ _ _ hp hexcl h ↦
    invariant_step hp hnode hdir hW hexcl h).neverClobbered

omit [DecidableEq ι] in
theorem ready_initial (n : ℕ) : Initial 1 Pool.onlyOnes (Pool.ready ι n) :=
  ⟨fun _ ↦ rfl, rfl, rfl, rfl, rfl⟩

theorem never_clobbered_last :
    ∃ q : Pool (Fin 1), NeverClobbered 1 Pool.onlyOnes q ∧
      q.slot.secret (.server, 1) = some Pool.onlyOnes := by
  let req (_ : Fin 1) : Request Config.release := Pool.plainRequest 1023
  have hlen : Pool.onlyOnes.length = Config.release.secretASize := List.length_replicate
  have hP : ∀ (p : Pool (Fin 1)) i, (p.request i).quiet = true → Exclusive req p i :=
    fun _ _ h data hd ↦ absurd h (by simp [hd, Pc.quiet])
  have hrun := Pool.serve (fun _ ↦ true) req hP
    (fun _ _ h data hd ↦ absurd h (by simp [hd, Pc.isZincrby])) (i := 0) (p := Pool.ready _ 1023)
    ⟨rfl, rfl, rfl, fun _ ↦ rfl⟩ rfl (by decide)
  rw [if_pos (by decide)] at hrun
  have hrun := hrun.next (fun _ _ _ j ↦ by
    rw [Subsingleton.elim j 0, Pool.moveTo_request]
    exact id) (Pool.enter _ _ (Pool.moveTo_request _) rfl)
  have hrun := hrun.trans (Pool.copy _ _ hP (Pool.moveTo_request _) rfl)
  have hrun := hrun.trans (Pool.finish _ _ hP (Pool.moveTo_request _))
  refine ⟨_, never_clobbered req (fun _ ↦ rfl) rfl hlen (ready_initial 1023) hrun, ?_⟩
  have hsecret (f : Source × ℕ → Option Bytes) :
      Function.update f (.server, 1) (some (load Config.release.secretASize Pool.onlyOnes 0))
        (.server, 1) =
        some Pool.onlyOnes := by
    rw [Function.update_self, load_self hlen]
  exact hsecret fun _ ↦ none

section Clobbering

variable {p : Pool ι} {a b : ι} {da db : List SecretDto}

theorem both_counted (dir : ℕ → Bool) (req : ι → Request cfg)
    (hprogress : ∀ i, (req i).progress < cfg.progress) {running : Bytes}
    (hs : Pool.Servable req running W p.slot) (ha : p.request a = .createTime)
    (hb : p.request b = .createTime) (hab : a ≠ b)
    (hcount : (p.slot.count .server).getD 0 + 1 = cfg.progress) :
    ∃ q da db, Reachable (Pool.step dir req) (fun _ _ ↦ True) p q ∧
      q.slot = { p.slot with count := q.slot.count } ∧ q.entered = p.entered ∧
      q.request a = .isValid da ∧ q.request b = .isValid db ∧
      ∀ j, j ≠ a → j ≠ b → q.request j = p.request j := by
  have hP : ∀ (p : Pool ι) i, (p.request i).quiet = true → True := fun _ _ _ ↦ trivial
  have hC : ∀ (p : Pool ι) i, (p.request i).isZincrby = true → True := fun _ _ _ ↦ trivial
  have hrun_a := Pool.serve dir req hP hC hs ha (hprogress a)
  rw [if_pos (by omega)] at hrun_a
  set da := pieceData cfg running W (req a)
  set q₁ := (p.countOne a).moveTo a (.isValid da)
  have hq₁b : q₁.request b = .createTime := (Pool.moveTo_request_of_ne hab.symm _).trans hb
  have hcount₁ : (q₁.slot.count .server).getD 0 = (p.slot.count .server).getD 0 + 1 :=
    Pool.countOne_count p a
  have hrun_b := Pool.serve dir req hP hC (p := q₁) (hs.frame rfl) hq₁b (hprogress b)
  rw [if_pos (by omega)] at hrun_b
  refine ⟨_, da, _, hrun_a.trans hrun_b, rfl, rfl, ?_, Pool.moveTo_request _, ?_⟩
  · exact (Pool.moveTo_request_of_ne hab _).trans (Pool.moveTo_request _)
  · intro j hja hjb
    exact (Pool.moveTo_request_of_ne hjb _).trans (Pool.moveTo_request_of_ne hja _)

/-- Two requests pass the check before either copies: the second one finds the waiting secret gone
and writes zeros over the first copy. -/
theorem second_copy_zeros (dir : ℕ → Bool) (req : ι → Request cfg)
    (hnode : ∀ i, (req i).nodeId = node)
    (hdir : dir node = true) (hab : a ≠ b) (ha : p.request a = .isValid da)
    (hb : p.request b = .isValid db) (hvalid : (p.slot.valid node).getD 0 = 0) :
    ∃ q, Reachable (Pool.step dir req) (fun _ _ ↦ True) p q ∧ q.entered = b :: a :: p.entered ∧
      q.slot.secret (.server, node) = some (zeros cfg.secretASize) ∧
      q.request a = success da ∧ q.request b = .moveZadd db ∧
      ∀ j, j ≠ a → j ≠ b → q.request j = p.request j := by
  have hP : ∀ (p : Pool ι) i, (p.request i).quiet = true → True := fun _ _ _ ↦ trivial
  have hzero (i : ι) : (p.slot.valid (req i).nodeId).getD 0 = 0 := by
    rw [hnode]
    exact hvalid
  have hrun : Reachable (Pool.step dir req) (fun _ _ ↦ True) p p := .start
  have hrun := hrun.next trivial (Pool.enter dir req ha (hzero a))
  set q₁ := Pool.moveTo { p with entered := a :: p.entered } a (.moveRead da)
  have hq₁b : q₁.request b = .isValid db := (Pool.moveTo_request_of_ne hab.symm _).trans hb
  have hrun := hrun.next trivial (Pool.enter dir req hq₁b (hzero b))
  set q₂ := Pool.moveTo { q₁ with entered := b :: q₁.entered } b (.moveRead db)
  have hq₂a : q₂.request a = .moveRead da :=
    (Pool.moveTo_request_of_ne hab _).trans (Pool.moveTo_request _)
  have hq₂b : q₂.request b = .moveRead db := Pool.moveTo_request _
  -- The first request copies and removes the waiting secret, the second one copies what is left.
  have hrun := hrun.trans (Pool.copy dir req hP hq₂a (by rw [hnode]; exact hdir))
  have hrun := hrun.trans (Pool.finish dir req hP (Pool.moveTo_request _))
  set q₄ := Pool.moveTo _ a (success da)
  have hq₄b : q₄.request b = .moveRead db :=
    (Pool.moveTo_request_of_ne hab.symm _).trans
      ((Pool.moveTo_request_of_ne hab.symm _).trans hq₂b)
  have hrun := hrun.trans (Pool.copy dir req hP hq₄b (by rw [hnode]; exact hdir))
  refine ⟨_, hrun, rfl, ?_, ?_, Pool.moveTo_request _, ?_⟩
  · change Function.update q₄.slot.secret (.server, (req b).nodeId) _ (.server, node) = _
    rw [hnode, Function.update_self]
    change some (load cfg.secretASize [] 0) = _
    rw [load_nil]
  · exact (Pool.moveTo_request_of_ne hab _).trans (Pool.moveTo_request _)
  · intro j hja hjb
    simp only [q₄, q₂, q₁, Pool.moveTo, Function.update_of_ne hja, Function.update_of_ne hjb]

theorem second_mover_clobbers (dir : ℕ → Bool) (req : ι → Request cfg)
    (hnode : ∀ i, (req i).nodeId = node) (hdir : dir node = true)
    (hprogress : ∀ i, (req i).progress < cfg.progress) (hinit : Initial node W p)
    (htime : (p.slot.time .server).isSome) {running : Bytes}
    (hrunning : p.slot.running .server = some running) {l : List ι} (hl : l.Nodup)
    (ha : a ∉ l) (hb : b ∉ l) (hab : a ≠ b) (hall : ∀ j, j ∈ l ∨ j = a ∨ j = b)
    (hcount : (p.slot.count .server).getD 0 + l.length + 1 = cfg.progress) :
    ∃ q, Reachable (Pool.step dir req) (fun _ _ ↦ True) p q ∧ q.entered = [b, a] ∧
      (∀ j, ¬Writing (q.request j)) ∧
      q.slot.secret (.server, node) = some (zeros cfg.secretASize) := by
  have hs : Pool.Servable req running W p.slot :=
    ⟨htime, hrunning, hinit.waiting, fun i ↦ by rw [hnode]; exact hinit.secret⟩
  obtain ⟨q, hrun, hslot, hq, hidle, hserved, hent⟩ := Pool.serve_all dir req
    (P := fun _ _ ↦ True) (fun _ _ _ ↦ trivial) (fun _ _ _ ↦ trivial) l p hs hl
    (fun i _ ↦ hinit.request i) (fun i _ ↦ hprogress i) (by omega)
  obtain ⟨q', da, db, hrun', hslot', hent', hqa, hqb, hothers⟩ := both_counted dir req hprogress
    (hs.frame hslot) ((hidle a ha).trans (hinit.request a)) ((hidle b hb).trans (hinit.request b))
    hab (by omega)
  have hvalid : (q'.slot.valid node).getD 0 = 0 := by
    rw [hslot', hslot, hinit.valid]
    rfl
  obtain ⟨r, hrun'', hent'', hsecret, hra, hrb, hothers'⟩ :=
    second_copy_zeros dir req hnode hdir hab hqa hqb hvalid
  refine ⟨r, (hrun.trans hrun').trans hrun'', ?_, ?_, hsecret⟩
  · rw [hent'', hent', hent, hinit.entered]
  · intro j
    by_cases hja : j = a
    · rw [hja, hra]
      exact id
    by_cases hjb : j = b
    · rw [hjb, hrb]
      exact id
    obtain ⟨data, hdata⟩ := hserved j (by simpa [hja, hjb] using hall j)
    rw [hothers' j hja hjb, hothers j hja hjb, hdata]
    exact id

end Clobbering

/-- The client's requests for the pieces `0` to `PROGRESS - 1`, the last one sent twice. -/
def lastTwice (i : Fin 1025) : Request Config.release := Pool.plainRequest (min i 1023)

theorem secret_clobbered :
    ∃ q, Reachable (Pool.step (fun _ ↦ true) lastTwice) (fun _ _ ↦ True) (Pool.ready _ 0) q ∧
      Initial 1 Pool.onlyOnes (Pool.ready (Fin 1025) 0) ∧ q.entered.length = 2 ∧
      q.slot.secret (.server, 1) = some (zeros Config.release.secretASize) ∧
      ¬NeverClobbered 1 Pool.onlyOnes q := by
  have hprogress : Config.release.progress = 1024 := by
    norm_num [Config.progress, Config.release]
  let l : List (Fin 1025) := (List.finRange 1023).map (Fin.castLE (by decide))
  have hl : l.Nodup := (List.nodup_finRange _).map (Fin.castLE_injective _)
  have hlt : ∀ j ∈ l, j.val < 1023 := by
    intro j hj
    obtain ⟨i, -, rfl⟩ := List.mem_map.mp hj
    exact i.isLt
  obtain ⟨q, hrun, hent, -, hsecret⟩ := second_mover_clobbers
    (fun _ ↦ true) lastTwice (fun _ ↦ rfl) rfl
    (fun i ↦ by rw [hprogress]; exact lt_of_le_of_lt (min_le_right _ _) (by norm_num))
    (ready_initial 0) rfl rfl hl (a := 1023) (b := 1024)
    (fun h ↦ absurd (hlt _ h) (by decide)) (fun h ↦ absurd (hlt _ h) (by decide)) (by decide)
    (fun j ↦ by
      by_cases hj : j.val < 1023
      · exact .inl (List.mem_map.mpr ⟨⟨j, hj⟩, List.mem_finRange _, rfl⟩)
      · have := j.isLt
        exact .inr (by rw [Fin.ext_iff, Fin.ext_iff]; show j.val = 1023 ∨ j.val = 1024; omega))
    (by rw [hprogress, List.length_map, List.length_finRange]; rfl)
  refine ⟨q, hrun, ready_initial 0, by rw [hent]; rfl, hsecret, ?_⟩
  intro h
  rw [NeverClobbered, hent] at h
  exact absurd h.1 (by decide)

end ShannonNet.Server.Move
