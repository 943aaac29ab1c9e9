import ShannonNet.Server.Coverage
import ShannonNet.Server.Move

namespace ShannonNet.Server.Serving

open Library.Runs Library.Bitset GetData

variable {cfg : Config} {dir : ℕ → Bool} {req : Fin cfg.progress → Request cfg} {node : ℕ}
  {K W : Bytes}

def Early : Pc → Prop
  | .createTime => True
  | .runningExists => True
  | .waitingExists => True
  | .secretExists => True
  | .fromFile => True
  | .openWaiting _ => True
  | .read _ _ => True
  | .zincrby _ => True
  | _ => False

/-- What a request has read so far, when nothing went wrong. -/
def Holds (K W : Bytes) (r : Request cfg) : Pc → Prop
  | .openWaiting running => running = K
  | .read running content => running = K ∧ content = W
  | .zincrby data => data = pieceData cfg K W r
  | .isValid data => data = pieceData cfg K W r
  | .moveRead data => data = pieceData cfg K W r
  | .moveOpen data _ => data = pieceData cfg K W r
  | .moveWrite data _ => data = pieceData cfg K W r
  | .moveZadd data => data = pieceData cfg K W r
  | .moveRemove data => data = pieceData cfg K W r
  | .done res => res = ⟨200, "success", pieceData cfg K W r⟩
  | _ => True

/-- What the first checks of a request look at, as long as nobody has moved the waiting secret. -/
structure Ready (node : ℕ) (K W : Bytes) (s : Slot) : Prop where
  time : (s.time .server).isSome
  running : s.running .server = some K
  untouched : Move.Untouched node W s

theorem Holds.step_early {r : Request cfg} {pc pc' : Pc} {s s' : Slot} (h : Holds K W r pc)
    (hearly : Early pc) (hs : Ready node K W s) (hnode : r.nodeId = node)
    (hr : r.progress < cfg.progress) (hstep : pc.step dir r s = some (pc', s')) :
    Holds K W r pc' ∧ (pc.isZincrby = false → Early pc') := by
  cases pc with
  | createTime =>
    rw [Pc.step, if_pos hs.time] at hstep
    cases hstep
    exact ⟨trivial, fun _ ↦ trivial⟩
  | runningExists =>
    rw [Pc.step, hs.running] at hstep
    cases hstep
    exact ⟨trivial, fun _ ↦ trivial⟩
  | waitingExists =>
    rw [Pc.step, hs.untouched.1] at hstep
    cases hstep
    exact ⟨trivial, fun _ ↦ trivial⟩
  | secretExists =>
    rw [Pc.step, hnode, hs.untouched.2.1] at hstep
    cases hstep
    exact ⟨trivial, fun _ ↦ trivial⟩
  | fromFile =>
    rw [Pc.step, hs.running] at hstep
    cases hstep
    exact ⟨rfl, fun _ ↦ trivial⟩
  | openWaiting running =>
    rw [Pc.step, hs.untouched.1] at hstep
    cases hstep
    exact ⟨⟨h, rfl⟩, fun _ ↦ trivial⟩
  | read running content =>
    obtain ⟨rfl, rfl⟩ := h
    rw [Pc.step_read hr] at hstep
    cases hstep
    exact ⟨rfl, fun _ ↦ trivial⟩
  | zincrby data =>
    cases hstep
    refine ⟨?_, fun hz ↦ absurd hz (by simp [Pc.isZincrby])⟩
    obtain rfl := h
    split_ifs
    · rfl
    · rfl
  | _ => exact hearly.elim

theorem Holds.step_late {r : Request cfg} {pc pc' : Pc} {s s' : Slot} (h : Holds K W r pc)
    (hlate : ¬Early pc) (hvalid : ∀ data, pc = .isValid data → (s.valid r.nodeId).getD 0 = 0)
    (hstep : pc.step dir r s = some (pc', s')) : Holds K W r pc' ∧ ¬Early pc' := by
  cases pc with
  | isValid data =>
    rw [Pc.step, if_neg (not_ne_iff.mpr (hvalid data rfl))] at hstep
    cases hstep
    exact ⟨h, id⟩
  | moveRemove data =>
    cases hstep
    obtain rfl := h
    exact ⟨rfl, id⟩
  | moveRead data =>
    cases hstep
    exact ⟨h, id⟩
  | moveOpen data moveBufferVec =>
    cases hstep
    exact ⟨h, id⟩
  | moveWrite data moveBufferVec =>
    cases hstep
    exact ⟨h, id⟩
  | moveZadd data =>
    cases hstep
    exact ⟨h, id⟩
  | done res => exact absurd hstep (by simp [Pc.step])
  | _ => exact absurd trivial hlate

/-- The requests of a client that asks for every piece once. -/
structure Invariant (node : ℕ) (K W : Bytes) (req : Fin cfg.progress → Request cfg)
    (p : Pool (Fin cfg.progress)) : Prop where
  coverage : Coverage.Invariant req p
  move : Move.Invariant node W p
  time : (p.slot.time .server).isSome
  running : p.slot.running .server = some K
  mem_counted : ∀ i, i ∈ p.counted ↔ ¬Early (p.request i)
  holds : ∀ i, Holds K W (req i) (p.request i)
  entered : ∀ m ∈ p.entered, cfg.progress ≤ p.counted.length ∧ p.counted.head? = some m
  last : cfg.progress ≤ p.counted.length → ∀ m, p.counted.head? = some m →
    (∃ data, p.request m = .isValid data) ∨ m ∈ p.entered

namespace Invariant

variable {p q : Pool (Fin cfg.progress)} {i : Fin cfg.progress}

theorem nodup (hp : Invariant node K W req p) : p.counted.Nodup := hp.coverage.nodup.of_map

theorem room (hp : Invariant node K W req p) (hi : Early (p.request i)) :
    p.counted.length < cfg.progress := by
  have hmem : i ∉ p.counted := fun h ↦ (hp.mem_counted i).mp h hi
  have hle := (List.nodup_cons.mpr ⟨hmem, hp.nodup⟩).length_le_card
  rwa [List.length_cons, Fintype.card_fin, Nat.succ_le_iff] at hle

theorem ready (hp : Invariant node K W req p) (hi : Early (p.request i)) :
    p.entered = [] ∧ Ready node K W p.slot := by
  have hroom := hp.room hi
  rcases hp.move with ⟨hent, huntouched, -⟩ | ⟨m, hent, -⟩
  · exact ⟨hent, hp.time, hp.running, huntouched⟩
  · have hlen := (hp.entered m (by simp [hent])).1
    omega

/-- The request that reached `PROGRESS` finds `move` free. -/
theorem free (hp : Invariant node K W req p) {data : List SecretDto}
    (hi : p.request i = .isValid data) :
    p.entered = [] ∧ Move.Untouched node W p.slot := by
  rcases hp.move with ⟨hent, huntouched, -⟩ | ⟨m, hent, hmover, -⟩
  · exact ⟨hent, huntouched⟩
  · have hm := (hp.entered m (by simp [hent])).2
    have hlate : Coverage.Late (p.request i) := by rw [hi]; trivial
    obtain rfl := Option.some.inj (hm.symm.trans (hp.coverage.late i hlate).2)
    rw [hi] at hmover
    exact hmover.elim

theorem freshPiece (hp : Invariant node K W req p) (hreq : ∀ i, (req i).progress = i) :
    Coverage.FreshPiece req p i := by
  intro hz j hj heq
  have hij : j = i := Fin.ext (by rw [← hreq, ← hreq, heq])
  rw [hij, hp.mem_counted] at hj
  cases hpc : p.request i with
  | zincrby data => exact hj (by rw [hpc]; trivial)
  | _ => exact absurd hz (by simp [hpc, Pc.isZincrby])

theorem exclusive (hp : Invariant node K W req p) : Move.Exclusive req p i := by
  intro data hi _ j hj
  have hfree := (hp.free hi).1
  rcases hp.move with ⟨-, -, hout⟩ | ⟨m, hent, -⟩
  · apply hout j
    cases hpc : p.request j with
    | moveRead data => trivial
    | moveOpen data moveBufferVec => trivial
    | moveWrite data moveBufferVec => trivial
    | moveZadd data => trivial
    | _ => rw [hpc] at hj; exact hj.elim
  · rw [hent] at hfree
    exact absurd hfree (by simp)

theorem step_other (hp : Invariant node K W req p) (hreq : ∀ i, (req i).progress = i)
    (hnode : ∀ i, (req i).nodeId = node) {pc : Pc} {s : Slot} (hz : (p.request i).isZincrby = false)
    (h : (p.request i).step dir (req i) p.slot = some (pc, s)) :
    Holds K W (req i) pc ∧ (Early pc ↔ Early (p.request i)) := by
  by_cases hi : Early (p.request i)
  · obtain ⟨hpc, hearly⟩ := (hp.holds i).step_early hi (hp.ready hi).2 (hnode i)
      (by rw [hreq]; exact i.isLt) h
    exact ⟨hpc, iff_of_true (hearly hz) hi⟩
  · obtain ⟨hpc, hlate⟩ := (hp.holds i).step_late hi
      (fun data hdata ↦ by rw [hnode]; exact (hp.free hdata).2.2.2) h
    exact ⟨hpc, iff_of_false hlate hi⟩

theorem step_holds (hp : Invariant node K W req p) (hreq : ∀ i, (req i).progress = i)
    (hnode : ∀ i, (req i).nodeId = node) (h : p.step dir req i = some q) (j : Fin cfg.progress) :
    Holds K W (req j) (q.request j) := by
  by_cases hj : j = i
  · subst hj
    cases Pool.step_kind dir req h with
    | count hpc =>
      have hholds := hp.holds j
      rw [hpc] at hholds
      obtain rfl := hholds
      rw [Pool.moveTo_request]
      split_ifs
      · rfl
      · rfl
    | other hz hstep =>
      dsimp only
      rw [Function.update_self]
      exact (hp.step_other hreq hnode hz hstep).1
  · obtain ⟨pc, s, -, rfl⟩ := Pool.step_cases dir req h
    dsimp only
    rw [Function.update_of_ne hj]
    exact hp.holds j

theorem step_mem_counted (hp : Invariant node K W req p) (hreq : ∀ i, (req i).progress = i)
    (hnode : ∀ i, (req i).nodeId = node) (h : p.step dir req i = some q) (j : Fin cfg.progress) :
    j ∈ q.counted ↔ ¬Early (q.request j) := by
  cases Pool.step_kind dir req h with
  | count hpc =>
    by_cases hj : j = i
    · subst hj
      rw [Pool.moveTo_request]
      refine iff_of_true (List.mem_cons_self) ?_
      split_ifs <;> exact id
    · rw [Pool.moveTo_request_of_ne hj]
      exact (List.mem_cons.trans (or_iff_right hj)).trans (hp.mem_counted j)
  | other hz hstep =>
    dsimp only
    by_cases hj : j = i
    · subst hj
      rw [Function.update_self, (hp.step_other hreq hnode hz hstep).2]
      exact hp.mem_counted j
    · rw [Function.update_of_ne hj]
      exact hp.mem_counted j

theorem step_entered (hp : Invariant node K W req p) (h : p.step dir req i = some q) :
    ∀ m ∈ q.entered, cfg.progress ≤ q.counted.length ∧ q.counted.head? = some m := by
  intro m hm
  cases Pool.step_kind dir req h with
  | count hpc =>
    have hent := (hp.ready (i := i) (by rw [hpc]; trivial)).1
    change m ∈ p.entered at hm
    rw [hent] at hm
    cases hm
  | other hz hstep =>
    dsimp only at hm
    split_ifs at hm with henter
    · rcases List.mem_cons.mp hm with rfl | hm
      · obtain ⟨data, hpc⟩ := Pc.step_enter hstep henter
        exact hp.coverage.late m (by rw [hpc]; trivial)
      · exact hp.entered m hm
    · exact hp.entered m hm

/-- The request that reached `PROGRESS` passes the check of `move`. -/
theorem step_last (hp : Invariant node K W req p) (hnode : ∀ i, (req i).nodeId = node)
    (h : p.step dir req i = some q) (hlen : cfg.progress ≤ q.counted.length) {m : Fin cfg.progress}
    (hm : q.counted.head? = some m) : (∃ data, q.request m = .isValid data) ∨ m ∈ q.entered := by
  cases Pool.step_kind dir req h with
  | @count data hpc =>
    cases hm
    have hge : cfg.progress ≤ p.counted.length + 1 := hlen
    rw [← hp.coverage.count] at hge
    exact .inl ⟨data, by rw [Pool.moveTo_request, if_pos hge]⟩
  | other hz hstep =>
    rcases hp.last hlen m hm with ⟨data, hdata⟩ | hent
    · by_cases hmi : m = i
      · subst hmi
        rw [hdata, Pc.step, hnode, if_neg (not_ne_iff.mpr (hp.free hdata).2.2.2)] at hstep
        cases hstep
        exact .inr (by simp [Pc.isMoveRead])
      · exact .inl ⟨data, (Function.update_of_ne hmi _ _).trans hdata⟩
    · right
      dsimp only
      split_ifs
      · exact List.mem_cons_of_mem _ hent
      · exact hent

theorem step (hp : Invariant node K W req p) (hreq : ∀ i, (req i).progress = i)
    (hnode : ∀ i, (req i).nodeId = node) (hdir : dir node = true) (hW : W.length = cfg.secretASize)
    (h : p.step dir req i = some q) : Invariant node K W req q := by
  have hpres : Preserved p.slot q.slot := by
    obtain ⟨pc, s, hstep, rfl⟩ := Pool.step_cases dir req h
    exact Pc.step_preserved hstep
  exact {
    coverage := Coverage.invariant_step hp.coverage (hp.freshPiece hreq) h
    move := Move.invariant_step hp.move hnode hdir hW hp.exclusive h
    time := by rw [hpres.time]; exact hp.time
    running := by rw [hpres.running]; exact hp.running
    mem_counted := hp.step_mem_counted hreq hnode h
    holds := hp.step_holds hreq hnode h
    entered := hp.step_entered h
    last := fun hlen _ ↦ hp.step_last hnode h hlen }

theorem of_initial (hcoverage : Coverage.Initial p) (hmove : Move.Initial node W p)
    (htime : (p.slot.time .server).isSome) (hrunning : p.slot.running .server = some K) :
    Invariant node K W req p where
  coverage := hcoverage.invariant
  move := hmove.invariant
  time := htime
  running := hrunning
  mem_counted i := by
    rw [hcoverage.request, hcoverage.counted]
    exact iff_of_false (by simp) fun h ↦ h trivial
  holds i := by
    rw [hcoverage.request]
    trivial
  entered m hm := by
    rw [hmove.entered] at hm
    exact absurd hm (by simp)
  last _ m hm := by
    rw [hcoverage.counted] at hm
    exact absurd hm (by simp)

theorem frame (hp : Invariant node K W req p) {s : Slot}
    (hmove : Move.Invariant node W { p with slot := s })
    (hcount : (s.count .server).getD 0 = (p.slot.count .server).getD 0)
    (htime : s.time .server = p.slot.time .server)
    (hrunning : s.running .server = p.slot.running .server) :
    Invariant node K W req { p with slot := s } where
  coverage := { hp.coverage with count := hcount.trans hp.coverage.count }
  move := hmove
  time := by rw [htime]; exact hp.time
  running := hrunning.trans hp.running
  mem_counted := hp.mem_counted
  holds := hp.holds
  entered := hp.entered
  last := hp.last

theorem counted_of_length (hp : Invariant node K W req p) (hlen : cfg.progress ≤ p.counted.length)
    (i : Fin cfg.progress) : i ∈ p.counted := by
  have hsub := hp.nodup.subperm fun i _ ↦ List.mem_finRange i
  exact (hsub.perm_of_length_le (by rwa [List.length_finRange])).mem_iff.mpr (List.mem_finRange i)

theorem covered (hp : Invariant node K W req p) (hreq : ∀ i, (req i).progress = i)
    (hwaiting : p.slot.waiting ≠ some W) : Coverage.Covered req p := by
  rcases hp.move with ⟨-, huntouched, -⟩ | ⟨m, hent, -⟩
  · exact absurd huntouched.1 hwaiting
  intro n hn
  have hmem := hp.counted_of_length (hp.entered m (by simp [hent])).1 ⟨n, hn⟩
  refine ⟨⟨n, hn⟩, hreq _, ?_⟩
  have hlate := (hp.mem_counted _).mp hmem
  have hholds := hp.holds ⟨n, hn⟩
  cases hpc : p.request ⟨n, hn⟩ with
  | isValid data => trivial
  | moveRead data => trivial
  | moveOpen data moveBufferVec => trivial
  | moveWrite data moveBufferVec => trivial
  | moveZadd data => trivial
  | moveRemove data => trivial
  | done res =>
    rw [hpc] at hholds
    obtain rfl := hholds
    rfl
  | _ =>
    rw [hpc] at hlate
    exact absurd trivial hlate

theorem finished (hp : Invariant node K W req p) (hdone : ∀ i, ∃ res, p.request i = .done res) :
    p.slot.secret (.server, node) = some W ∧ (p.slot.valid node).getD 0 ≠ 0 := by
  have hall (i : Fin cfg.progress) : i ∈ p.counted := by
    obtain ⟨res, hres⟩ := hdone i
    rw [hp.mem_counted, hres]
    exact id
  have hlen : cfg.progress ≤ p.counted.length := by
    have hle := ((List.nodup_finRange cfg.progress).subperm fun i _ ↦ hall i).length_le
    rwa [List.length_finRange] at hle
  obtain ⟨m, hm⟩ : ∃ m, p.counted.head? = some m := by
    cases hc : p.counted with
    | nil => exact absurd (hall ⟨0, cfg.progress_pos⟩) (by simp [hc])
    | cons m l => exact ⟨m, rfl⟩
  have hent : m ∈ p.entered := by
    apply (hp.last hlen m hm).resolve_left
    rintro ⟨data, hdata⟩
    obtain ⟨res, hres⟩ := hdone m
    exact absurd (hdata.symm.trans hres) (by simp)
  rcases hp.move with ⟨hnil, -⟩ | ⟨m', -, hmover, -⟩
  · rw [hnil] at hent
    exact absurd hent (by simp)
  · obtain ⟨res, hres⟩ := hdone m'
    rw [hres] at hmover
    exact hmover

theorem enabled (hp : Invariant node K W req p) (dir : ℕ → Bool) (hreq : ∀ i, (req i).progress = i)
    (hi : ∀ res, p.request i ≠ .done res) : ∃ q, p.step dir req i = some q := by
  refine Option.ne_none_iff_exists'.mp (Option.map_eq_none_iff.not.mpr ?_)
  cases hpc : p.request i with
  | fromFile =>
    have hready := (hp.ready (i := i) (by rw [hpc]; trivial)).2
    simp [Pc.step, hready.running]
  | read running content =>
    rw [Pc.step_read (by rw [hreq]; exact i.isLt)]
    simp
  | done res => exact absurd hpc (hi res)
  | _ =>
    intro h
    cases h

end Invariant

def rank : Pc → ℕ
  | .createTime => 14
  | .runningExists => 13
  | .waitingExists => 12
  | .secretExists => 11
  | .fromFile => 10
  | .openWaiting _ => 9
  | .read _ _ => 8
  | .zincrby _ => 7
  | .isValid _ => 6
  | .moveRead _ => 5
  | .moveOpen _ _ => 4
  | .moveWrite _ _ => 3
  | .moveZadd _ => 2
  | .moveRemove _ => 1
  | .done _ => 0

theorem rank_step {r : Request cfg} {pc pc' : Pc} {s s' : Slot}
    (h : pc.step dir r s = some (pc', s')) : rank pc' < rank pc := by
  cases pc with
  | fromFile =>
    obtain ⟨rfl, running, rfl⟩ := Pc.fromFile_cases h
    simp [rank]
  | openWaiting running =>
    cases h
    split <;> simp [rank, error]
  | read running content =>
    obtain ⟨rfl, ⟨res, rfl⟩ | ⟨-, data, rfl⟩⟩ := Pc.read_cases h
    · simp [rank]
    · simp [rank]
  | done res => cases h
  | _ =>
    cases h
    try split_ifs
    all_goals simp [rank, error, success]

end ShannonNet.Server.Serving
