import GomokuCli.ForbiddenPoint
import GomokuCli.Play

/-!
# What a round does

The phases of the loop body each touch a few fields.  `SameTurn` is what all of
them leave alone between the head of a round and its end: which ply it is, whose
turn it is, and every position up to the recorded win connection.

`Continues` and `Breaks` say everything about a round that goes on to the next
one and about a `break`; the theorems about whole runs only use these two.
-/

namespace GomokuCli

open EarlyExit

namespace PlayState

/-- Two states of one round.  What belongs to the turn is left alone by all phases: they may
set the verdict, the counters of the adjudication, the clock and the logs.  A phase that has
this property need not be looked at again when the invariant of the loop is proved. -/
structure SameTurn (s t : PlayState) : Prop where
  ply : t.game.ply = s.game.ply
  posSize : t.game.posSize = s.game.posSize
  pos_of_ne : ∀ k, k ≠ s.game.ply → t.game.pos k = s.game.pos k
  position : Position.SameButWin s.position t.position
  gameRule : t.game.gameRule = s.game.gameRule
  names : t.game.names = s.game.names
  samples : t.game.samples = s.game.samples
  ei : t.ei = s.ei

namespace SameTurn

variable {s t u : PlayState}

@[refl] theorem refl (s : PlayState) : SameTurn s s :=
  ⟨rfl, rfl, fun _ _ => rfl, Position.SameButWin.refl _, rfl, rfl, rfl, rfl⟩

theorem trans (h : SameTurn s t) (h' : SameTurn t u) : SameTurn s u where
  ply := h'.ply.trans h.ply
  posSize := h'.posSize.trans h.posSize
  pos_of_ne := by
    intro k hk
    rw [h'.pos_of_ne k (by rwa [h.ply]), h.pos_of_ne k hk]
  position := h.position.trans h'.position
  gameRule := h'.gameRule.trans h.gameRule
  names := h'.names.trans h.names
  samples := h'.samples.trans h.samples
  ei := h'.ei.trans h.ei

/-- The counters of the adjudication and the verdict do not belong to the turn. -/
theorem withCounts (h : SameTurn s t) (state : GameState) (drawPlyCount : Int)
    (resignCount : Bool → Int) :
    SameTurn s { t with
      game := { t.game with state := state }
      drawPlyCount := drawPlyCount
      resignCount := resignCount } :=
  ⟨h.ply, h.posSize, h.pos_of_ne, h.position, h.gameRule, h.names, h.samples, h.ei⟩

end SameTurn

/-- An assignment to `pos[ply]` that only touches the win connection. -/
theorem sameTurn_setPosition {s : PlayState} {P : Position}
    (h : Position.SameButWin s.position P) :
    SameTurn s { s with game := s.game.setPosition P } where
  ply := rfl
  posSize := rfl
  pos_of_ne := fun k hk => Function.update_of_ne hk _ _
  position := by
    have hself : (s.game.setPosition P).pos s.game.ply = P := Function.update_self _ _ _
    change Position.SameButWin s.position ((s.game.setPosition P).pos s.game.ply)
    rwa [hself]
  gameRule := rfl
  names := rfl
  samples := rfl
  ei := rfl

section EnterPly

variable (s : PlayState)

@[simp] theorem enterPly_ply : s.enterPly.game.ply = s.game.ply := by
  unfold enterPly
  split <;> rfl

@[simp] theorem enterPly_posSize : s.enterPly.game.posSize = s.game.posSize := by
  unfold enterPly
  split <;> rfl

@[simp] theorem enterPly_gameRule : s.enterPly.game.gameRule = s.game.gameRule := by
  unfold enterPly
  split <;> rfl

@[simp] theorem enterPly_names : s.enterPly.game.names = s.game.names := by
  unfold enterPly
  split <;> rfl

@[simp] theorem enterPly_samples : s.enterPly.game.samples = s.game.samples := by
  unfold enterPly
  split <;> rfl

@[simp] theorem enterPly_ei : s.enterPly.ei = s.ei := by
  unfold enterPly
  split <;> rfl

@[simp] theorem enterPly_played : s.enterPly.played = s.played := by
  unfold enterPly
  split <;> rfl

@[simp] theorem enterPly_log : s.enterPly.log = s.log := by
  unfold enterPly
  split <;> rfl

@[simp] theorem enterPly_canUseTurn : s.enterPly.canUseTurn = s.canUseTurn := by
  unfold enterPly
  split <;> rfl

theorem enterPly_pos_of_ne {k : Nat} (hk : k ≠ s.game.ply) :
    s.enterPly.game.pos k = s.game.pos k := by
  unfold enterPly
  split
  · exact Function.update_of_ne hk _ _
  · rfl

theorem enterPly_position_first (h : s.played = noneMove) :
    s.enterPly.position = s.game.pos s.game.ply := by
  rw [enterPly, if_neg (not_not.mpr h)]
  rfl

theorem enterPly_position_next (h : s.played ≠ noneMove) :
    s.enterPly.position = (s.game.pos (s.game.ply - 1)).move s.played := by
  rw [enterPly, if_pos h]
  exact Function.update_self _ _ _

end EnterPly

end PlayState

namespace Match

open PlayState

variable {m : Match} {s t : PlayState}

/-! ## The phases -/

/-- A state with a value stands after `STATE_NONE`. -/
theorem code_pos_iff (state : GameState) : state.code > GameState.none.code ↔ state ≠ .none := by
  cases state <;> simp [GameState.code]

theorem gameApplyRules_snd (g : Game) (lastmove : Nat) :
    (g.gameApplyRules lastmove).2 =
      g.setPosition (g.position.checkFiveInLineLastmove
        (Game.allowLongConnection g.gameRule lastmove)).2 := by
  unfold Game.gameApplyRules
  simp only
  split
  · rfl
  · split <;> rfl

/-- The rules change nothing but the recorded win connection and the state. -/
theorem applyRules_sameTurn (s : PlayState) : SameTurn s s.applyRules := by
  have h := sameTurn_setPosition (Position.checkFiveInLineLastmove_same s.position
    (Game.allowLongConnection s.game.gameRule s.played))
  change SameTurn s { s with
    game := { (s.game.gameApplyRules s.played).2 with
      state := (s.game.gameApplyRules s.played).1 } }
  rw [gameApplyRules_snd]
  exact ⟨h.ply, h.posSize, h.pos_of_ne, h.position, h.gameRule, h.names, h.samples, h.ei⟩

/-- The state in which the engine is asked for its move. -/
def asked (s : PlayState) : PlayState := s.enterPly.applyRules

theorem asked_sameTurn (s : PlayState) : SameTurn s.enterPly (asked s) :=
  applyRules_sameTurn _

theorem asked_state (s : PlayState) :
    (asked s).game.state = (s.enterPly.game.gameApplyRules s.played).1 := by
  change (s.enterPly.game.gameApplyRules s.enterPly.played).1 = _
  rw [enterPly_played]

theorem asked_played (s : PlayState) : (asked s).played = s.played := enterPly_played s

theorem asked_log (s : PlayState) : (asked s).log = s.log := enterPly_log s

theorem asked_canUseTurn (s : PlayState) : (asked s).canUseTurn = s.canUseTurn :=
  enterPly_canUseTurn s

theorem rulesPhase_eq_ok_iff :
    m.rulesPhase s = .ok t ↔
      (asked s).game.state = .none ∧ ¬ m.ForcedDraw (asked s).position ∧ asked s = t := by
  change (if (asked s).game.state.code > GameState.none.code then Except.error (.broke (asked s))
    else if m.ForcedDraw (asked s).position then (asked s).stop .drawAdjudication
    else .ok (asked s)) = .ok t ↔ _
  simp only [code_pos_iff]
  by_cases hstate : (asked s).game.state = .none
  · rw [if_neg (not_not.mpr hstate)]
    by_cases hforced : m.ForcedDraw (asked s).position
    · simp [hforced, stop]
    · simp [hforced, hstate]
  · simp [hstate]

theorem rulesPhase_eq_error_iff {e : Stop} :
    m.rulesPhase s = .error e ↔
      ((asked s).game.state ≠ .none ∧ e = .broke (asked s)) ∨
      ((asked s).game.state = .none ∧ m.ForcedDraw (asked s).position ∧
        (asked s).stop .drawAdjudication = .error e) := by
  change (if (asked s).game.state.code > GameState.none.code then Except.error (.broke (asked s))
    else if m.ForcedDraw (asked s).position then (asked s).stop .drawAdjudication
    else .ok (asked s)) = .error e ↔ _
  simp only [code_pos_iff]
  by_cases hstate : (asked s).game.state = .none
  · rw [if_neg (not_not.mpr hstate)]
    by_cases hforced : m.ForcedDraw (asked s).position
    · simp [hforced, hstate]
    · simp [hforced, hstate]
  · simp [hstate, eq_comm]

/-- The state in which the answer of the engine arrives. -/
def answering (m : Match) (s : PlayState) : PlayState := m.receive (m.thinkPhase (asked s))

/-- Asking the engine and waiting for it changes the clock, the flags, the log and
the information list. -/
theorem answering_sameTurn (s : PlayState) : SameTurn (asked s) (m.answering s) :=
  ⟨rfl, rfl, fun _ _ => rfl, Position.SameButWin.refl _, rfl, rfl, rfl, rfl⟩

theorem answering_position (s : PlayState) : (m.answering s).position = (asked s).position := rfl

theorem answering_ply (s : PlayState) : (m.answering s).game.ply = s.game.ply := by
  rw [(answering_sameTurn s).ply, (asked_sameTurn s).ply, enterPly_ply]

theorem asked_ply (s : PlayState) : (asked s).game.ply = s.game.ply := by
  rw [(asked_sameTurn s).ply, enterPly_ply]

theorem answering_gameRule (s : PlayState) : (m.answering s).game.gameRule = s.game.gameRule := by
  rw [(answering_sameTurn s).gameRule, (asked_sameTurn s).gameRule, enterPly_gameRule]

theorem answerPhase_eq (s : PlayState) :
    m.answerPhase (m.thinkPhase (asked s)) =
      if (m.moveReply s.game.ply).ok = true then
        if m.SoftTimeout (m.answering s) then (m.answering s).stop .timeLoss
        else
          match (asked s).position.gomostrToMove (m.moveReply s.game.ply).bestmove with
          | none => .error .aborted
          | some played => judgeMove { m.answering s with played := played }
      else if m.options.fatalError then .error .exited
      else (m.answering s).stop
        (if (m.moveReply s.game.ply).crashed then .crashed else .timeLoss) := by
  have hply : (m.thinkPhase (asked s)).game.ply = s.game.ply := asked_ply s
  rw [answerPhase, hply]
  change (if (!(m.moveReply s.game.ply).ok) = true then _ else
    if m.SoftTimeout (m.answering s) then (m.answering s).stop .timeLoss else _) = _
  cases (m.moveReply s.game.ply).ok <;> rfl

/-- Recording the verdict of the finder, when it has left the position alone. -/
theorem checkForbidden_eq (hshape : s.position.BoardShape)
    (hlegal : s.position.isLegalMove s.played = true) :
    ∃ v, s.position.checkForbiddenMove s.played = some (v, s.position) ∧
      s.checkForbidden = { s with game := { s.game with forbiddenType := v } } := by
  have hverdict := hshape.checkForbiddenMove_eq hlegal
  refine ⟨_, hverdict, ?_⟩
  rw [checkForbidden, hverdict]
  simp only [Option.getD_some, Game.setPosition]
  rw [show s.position = s.game.pos s.game.ply from rfl, Function.update_eq_self]

/-- The kind of forbidden move that the referee takes a move for.  It is only asked for
under Renju. -/
def Forbidden (rule : GameRule) (P : Position) (played : Nat) : Prop :=
  rule = .renju ∧ ∃ v, P.checkForbiddenMove played = some (v, P) ∧ v ≠ .none

/-- What the checks on a move come to: it is illegal, forbidden, or let pass, and nothing
but the forbidden type has been written. -/
theorem judgeMove_cases (hshape : s.position.BoardShape) :
    (s.position.isLegalMove s.played = false ∧ judgeMove s = s.stop .illegalMove) ∨
    (s.position.isLegalMove s.played = true ∧
      Forbidden s.game.gameRule s.position s.played ∧
      ∃ v, judgeMove s =
        PlayState.stop { s with game := { s.game with forbiddenType := v } } .forbiddenMove) ∨
    (s.position.isLegalMove s.played = true ∧
      ¬ Forbidden s.game.gameRule s.position s.played ∧
      ∃ v, judgeMove s = .ok { s with game := { s.game with forbiddenType := v } }) := by
  unfold judgeMove
  cases hlegal : s.position.isLegalMove s.played with
  | false => exact Or.inl ⟨rfl, rfl⟩
  | true =>
      right
      simp only [Bool.not_true, Bool.false_eq_true, if_false]
      obtain ⟨v, hverdict, heq⟩ := checkForbidden_eq hshape hlegal
      by_cases hrule : s.game.gameRule = .renju
      · rw [if_pos hrule, heq]
        by_cases hv : v = .none
        · right
          refine ⟨trivial, ?_, v, if_neg (not_not.mpr hv)⟩
          rintro ⟨-, v', hverdict', hv'⟩
          rw [hverdict, Option.some.injEq, Prod.mk.injEq] at hverdict'
          exact hv' (hverdict'.1 ▸ hv)
        · left
          exact ⟨trivial, ⟨hrule, v, hverdict, hv⟩, v, if_pos hv⟩
      · right
        exact ⟨trivial, fun h => hrule h.1, s.game.forbiddenType, if_neg hrule⟩

/-- The draw rule ends the game on this move. -/
def DrawsNow (m : Match) (s : PlayState) : Prop :=
  m.Drawish s.game.ply ∧ s.drawPlyCount + 1 ≥ 2 * m.options.drawCount

/-- The resign rule ends the game on this move. -/
def ResignsNow (m : Match) (s : PlayState) : Prop :=
  m.Hopeless s.game.ply ∧ s.resignCount s.ei + 1 ≥ m.options.resignCount

theorem drawPhase_of_drawsNow (h : m.DrawsNow s) :
    m.drawPhase s =
      PlayState.stop { s with drawPlyCount := s.drawPlyCount + 1 } .drawAdjudication := by
  rw [drawPhase, if_pos h.1]
  exact if_pos h.2

theorem drawPhase_of_not_drawsNow (h : ¬ m.DrawsNow s) :
    ∃ count, m.drawPhase s = .ok { s with drawPlyCount := count } := by
  rw [drawPhase]
  by_cases hdrawish : m.Drawish s.game.ply
  · rw [if_pos hdrawish]
    exact ⟨s.drawPlyCount + 1, if_neg fun hcount => h ⟨hdrawish, hcount⟩⟩
  · rw [if_neg hdrawish]
    exact ⟨0, rfl⟩

theorem resignPhase_of_resignsNow (h : m.ResignsNow s) :
    ∃ count, m.resignPhase s =
      PlayState.stop { s with resignCount := count } .resign := by
  rw [resignPhase, if_pos h.1]
  exact ⟨_, if_pos h.2⟩

theorem resignPhase_of_not_resignsNow (h : ¬ m.ResignsNow s) :
    ∃ count, m.resignPhase s = .ok { s with resignCount := count } := by
  rw [resignPhase]
  by_cases hhopeless : m.Hopeless s.game.ply
  · rw [if_pos hhopeless]
    exact ⟨_, if_neg fun hcount => h ⟨hhopeless, hcount⟩⟩
  · rw [if_neg hhopeless]
    exact ⟨_, rfl⟩

/-! ## The whole round -/

/-- The engine has answered in time with a legal move that is not forbidden.  It is what
must have happened in a round that goes on, and it is a condition on the answer and on the
state at the head of the round only. -/
structure Accepts (m : Match) (s : PlayState) (played : Nat) : Prop where
  state : (asked s).game.state = .none
  notForced : ¬ m.ForcedDraw (asked s).position
  replied : (m.moveReply s.game.ply).ok = true
  inTime : ¬ m.SoftTimeout (m.answering s)
  reads : (asked s).position.gomostrToMove (m.moveReply s.game.ply).bestmove = some played
  legal : (asked s).position.isLegalMove played = true
  allowed : ¬ Forbidden s.game.gameRule (asked s).position played

/-- The state in which an accepted move is adjudicated. -/
def accepted (m : Match) (s : PlayState) (played : Nat) (v : ForbiddenType) : PlayState :=
  { m.answering s with
    played := played
    game := { (m.answering s).game with forbiddenType := v } }

theorem accepted_sameTurn (s : PlayState) (played : Nat) (v : ForbiddenType) :
    SameTurn (asked s) (m.accepted s played v) :=
  have hrecorded : SameTurn (m.answering s) (m.accepted s played v) :=
    ⟨rfl, rfl, fun _ _ => rfl, Position.SameButWin.refl _, rfl, rfl, rfl, rfl⟩
  (answering_sameTurn s).trans hrecorded

/-- The exits by `break`, each with what has led to it.  The state in which the loop is left
belongs to the same turn as that in which the engine was asked. -/
inductive Breaks (m : Match) (s : PlayState) : PlayState → Prop
  | rules (h : (asked s).game.state ≠ .none) : Breaks m s (asked s)
  | forced {t : PlayState} (h : (asked s).game.state = .none)
      (hforced : m.ForcedDraw (asked s).position) (same : SameTurn (asked s) t)
      (hstate : t.game.state = .drawAdjudication) : Breaks m s t
  | noAnswer {t : PlayState} (h : (asked s).game.state = .none)
      (hreply : (m.moveReply s.game.ply).ok = false) (same : SameTurn (asked s) t)
      (hstate : t.game.state =
        if (m.moveReply s.game.ply).crashed then .crashed else .timeLoss) : Breaks m s t
  | late {t : PlayState} (h : (asked s).game.state = .none)
      (htime : m.SoftTimeout (m.answering s)) (same : SameTurn (asked s) t)
      (hstate : t.game.state = .timeLoss) : Breaks m s t
  | illegal {t : PlayState} (h : (asked s).game.state = .none)
      (hreads : (asked s).position.gomostrToMove (m.moveReply s.game.ply).bestmove =
        some t.played)
      (hillegal : (asked s).position.isLegalMove t.played = false) (same : SameTurn (asked s) t)
      (hstate : t.game.state = .illegalMove) : Breaks m s t
  | forbidden {t : PlayState} (h : (asked s).game.state = .none)
      (hreads : (asked s).position.gomostrToMove (m.moveReply s.game.ply).bestmove =
        some t.played)
      (hlegal : (asked s).position.isLegalMove t.played = true)
      (hforbidden : Forbidden s.game.gameRule (asked s).position t.played)
      (same : SameTurn (asked s) t) (hstate : t.game.state = .forbiddenMove) : Breaks m s t
  | drawn {t : PlayState} (h : m.Accepts s t.played) (hdraw : m.DrawsNow s)
      (same : SameTurn (asked s) t) (hstate : t.game.state = .drawAdjudication) : Breaks m s t
  | resigned {t : PlayState} (h : m.Accepts s t.played) (hresign : m.ResignsNow s)
      (same : SameTurn (asked s) t) (hstate : t.game.state = .resign) : Breaks m s t

/-- A round that goes on to the next one: a move was accepted, neither rule of the
adjudication ended the game, and the rest is what `recordPhase` does. -/
structure Continues (m : Match) (s s' : PlayState) : Prop where
  accepts : m.Accepts s s'.played
  notDrawn : ¬ m.DrawsNow s
  notResigned : ¬ m.ResignsNow s
  recorded : ∃ t, SameTurn (asked s) t ∧ t.played = s'.played ∧ t.log = (m.answering s).log ∧
    t.canUseTurn = (m.answering s).canUseTurn ∧ m.recordPhase t = s'

theorem accepted_drawsNow_iff (played : Nat) (v : ForbiddenType) :
    m.DrawsNow (m.accepted s played v) ↔ m.DrawsNow s := by
  have hply : (m.accepted s played v).game.ply = s.game.ply := answering_ply (m := m) s
  have hcount : (m.accepted s played v).drawPlyCount = s.drawPlyCount := by
    change s.enterPly.drawPlyCount = s.drawPlyCount
    unfold enterPly
    split <;> rfl
  rw [DrawsNow, DrawsNow, hply, hcount]

theorem accepted_resignsNow_iff (played : Nat) (v : ForbiddenType) (count : Int) :
    m.ResignsNow { m.accepted s played v with drawPlyCount := count } ↔ m.ResignsNow s := by
  have hply : (m.accepted s played v).game.ply = s.game.ply := answering_ply (m := m) s
  have hei : (m.accepted s played v).ei = s.ei := enterPly_ei s
  have hcount : (m.accepted s played v).resignCount = s.resignCount := by
    change s.enterPly.resignCount = s.resignCount
    unfold enterPly
    split <;> rfl
  rw [ResignsNow, ResignsNow]
  simp only [hply, hei, hcount]

/-- What is left to do for a move that the checks let pass. -/
theorem round_eq_of_accepts (hshape : (asked s).position.BoardShape) {played : Nat}
    (h : m.Accepts s played) :
    ∃ v, m.round s = (do
      let t ← m.drawPhase (m.accepted s played v)
      let t ← m.resignPhase t
      return m.recordPhase t) := by
  have hrules := rulesPhase_eq_ok_iff.mpr ⟨h.state, h.notForced, rfl⟩
  have hanswer : m.answerPhase (m.thinkPhase (asked s)) =
      judgeMove { m.answering s with played := played } := by
    rw [answerPhase_eq, if_pos h.replied, if_neg h.inTime, h.reads]
  obtain ⟨v, hok⟩ : ∃ v, m.answerPhase (m.thinkPhase (asked s)) = .ok (m.accepted s played v) := by
    obtain ⟨hillegal, -⟩ | ⟨-, hforbidden, -⟩ | ⟨-, -, v, hok⟩ :=
      judgeMove_cases (s := { m.answering s with played := played }) hshape
    · have hlegal := h.legal
      rw [← answering_position (m := m)] at hlegal
      rw [show PlayState.position { m.answering s with played := played } =
        (m.answering s).position from rfl, hlegal] at hillegal
      cases hillegal
    · rw [show (PlayState.game { m.answering s with played := played }).gameRule =
        s.game.gameRule from answering_gameRule s] at hforbidden
      exact absurd hforbidden h.allowed
    · exact ⟨v, hanswer.trans hok⟩
  refine ⟨v, ?_⟩
  rw [round, hrules]
  simp only [bind, Except.bind, hok]

/-- A move that the checks let pass is adjudicated and recorded. -/
theorem round_of_accepts (hshape : (asked s).position.BoardShape) {played : Nat}
    (h : m.Accepts s played) :
    (∃ t, m.round s = .error (.broke t) ∧ Breaks m s t ∧ (m.DrawsNow s ∨ m.ResignsNow s)) ∨
      ∃ s', m.round s = .ok s' ∧ Continues m s s' ∧ s'.played = played := by
  obtain ⟨v, hround⟩ := round_eq_of_accepts hshape h
  by_cases hdraw : m.DrawsNow s
  · have hphase := drawPhase_of_drawsNow ((accepted_drawsNow_iff played v).mpr hdraw)
    left
    refine ⟨_, hround.trans (bind_eq_error.mpr (Or.inl hphase)), ?_, Or.inl hdraw⟩
    exact .drawn h hdraw ((accepted_sameTurn (m := m) s played v).withCounts _ _ _) rfl
  · obtain ⟨count, hphase⟩ := drawPhase_of_not_drawsNow
      (mt (accepted_drawsNow_iff played v).mp hdraw)
    by_cases hresign : m.ResignsNow s
    · obtain ⟨counts, hphase'⟩ := resignPhase_of_resignsNow
        ((accepted_resignsNow_iff played v count).mpr hresign)
      left
      refine ⟨_, hround.trans (bind_eq_error.mpr (Or.inr ⟨_, hphase,
        bind_eq_error.mpr (Or.inl hphase')⟩)), ?_, Or.inr hresign⟩
      exact .resigned h hresign ((accepted_sameTurn (m := m) s played v).withCounts _ _ _) rfl
    · obtain ⟨counts, hphase'⟩ := resignPhase_of_not_resignsNow
        (mt (accepted_resignsNow_iff played v count).mp hresign)
      right
      refine ⟨_, hround.trans (bind_eq_ok.mpr ⟨_, hphase,
        bind_eq_ok.mpr ⟨_, hphase', rfl⟩⟩), ?_, rfl⟩
      have hsame := (accepted_sameTurn (m := m) s played v).withCounts
        (m.accepted s played v).game.state count counts
      exact ⟨h, hdraw, hresign, _, hsame, rfl, rfl, rfl, rfl⟩

theorem round_of_rulesPhase {e : Stop} (h : m.rulesPhase s = .error e) :
    m.round s = .error e :=
  bind_eq_error.mpr (Or.inl h)

theorem round_of_answerPhase {e : Stop} (hstate : (asked s).game.state = .none)
    (hforced : ¬ m.ForcedDraw (asked s).position)
    (h : m.answerPhase (m.thinkPhase (asked s)) = .error e) : m.round s = .error e :=
  bind_eq_error.mpr (Or.inr ⟨asked s, rulesPhase_eq_ok_iff.mpr ⟨hstate, hforced, rfl⟩,
    bind_eq_error.mpr (Or.inl h)⟩)

/-- **Everything a round can do.** It goes on with an accepted move, breaks for one of the
reasons of the source, or ends the program.  The theorems about runs split these cases and
never unfold the round again. -/
theorem round_cases (m : Match) (hshape : (asked s).position.BoardShape) :
    (∃ s', m.round s = .ok s' ∧ Continues m s s') ∨
    (∃ t, m.round s = .error (.broke t) ∧ Breaks m s t) ∨
    (m.round s = .error .exited ∧ (m.moveReply s.game.ply).ok = false ∧
      m.options.fatalError = true) ∨
    (m.round s = .error .aborted ∧
      (asked s).position.gomostrToMove (m.moveReply s.game.ply).bestmove = none) := by
  by_cases hstate : (asked s).game.state = .none
  case neg =>
    refine Or.inr (Or.inl ⟨asked s, round_of_rulesPhase ?_, .rules hstate⟩)
    exact rulesPhase_eq_error_iff.mpr (Or.inl ⟨hstate, rfl⟩)
  by_cases hforced : m.ForcedDraw (asked s).position
  case pos =>
    refine Or.inr (Or.inl ⟨_, round_of_rulesPhase
      (rulesPhase_eq_error_iff.mpr (Or.inr ⟨hstate, hforced, rfl⟩)), ?_⟩)
    exact .forced hstate hforced ((SameTurn.refl _).withCounts _ _ _) rfl
  have hanswer := answerPhase_eq (m := m) s
  have hsame := answering_sameTurn (m := m) s
  cases hreply : (m.moveReply s.game.ply).ok with
  | false =>
      rw [hreply] at hanswer
      by_cases hfatal : m.options.fatalError = true
      · rw [if_neg Bool.false_ne_true, if_pos hfatal] at hanswer
        exact Or.inr (Or.inr (Or.inl
          ⟨round_of_answerPhase hstate hforced hanswer, rfl, hfatal⟩))
      · rw [if_neg Bool.false_ne_true, if_neg hfatal] at hanswer
        refine Or.inr (Or.inl ⟨_, round_of_answerPhase hstate hforced hanswer, ?_⟩)
        exact .noAnswer hstate hreply (hsame.withCounts _ _ _) rfl
  | true =>
      rw [hreply, if_pos rfl] at hanswer
      by_cases htime : m.SoftTimeout (m.answering s)
      · rw [if_pos htime] at hanswer
        refine Or.inr (Or.inl ⟨_, round_of_answerPhase hstate hforced hanswer, ?_⟩)
        exact .late hstate htime (hsame.withCounts _ _ _) rfl
      · rw [if_neg htime] at hanswer
        cases hreads : (asked s).position.gomostrToMove (m.moveReply s.game.ply).bestmove with
        | none =>
            rw [hreads] at hanswer
            exact Or.inr (Or.inr (Or.inr ⟨round_of_answerPhase hstate hforced hanswer, rfl⟩))
        | some played =>
            rw [hreads] at hanswer
            obtain ⟨hillegal, hstop⟩ | ⟨hlegal, hforbidden, v, hstop⟩ | ⟨hlegal, hallowed, -⟩ :=
              judgeMove_cases (s := { m.answering s with played := played }) hshape
            · refine Or.inr (Or.inl ⟨_, round_of_answerPhase hstate hforced
                (hanswer.trans hstop), ?_⟩)
              exact .illegal hstate hreads hillegal
                ((accepted_sameTurn (m := m) s played (m.answering s).game.forbiddenType).withCounts
                  _ _ _) rfl
            · refine Or.inr (Or.inl ⟨_, round_of_answerPhase hstate hforced
                (hanswer.trans hstop), ?_⟩)
              have hrule : (m.answering s).game.gameRule = s.game.gameRule :=
                answering_gameRule s
              exact .forbidden hstate hreads hlegal (hrule ▸ hforbidden)
                ((accepted_sameTurn (m := m) s played v).withCounts _ _ _) rfl
            · have hrule : (m.answering s).game.gameRule = s.game.gameRule :=
                answering_gameRule s
              have haccepts : m.Accepts s played :=
                ⟨hstate, hforced, hreply, htime, hreads, hlegal, hrule ▸ hallowed⟩
              obtain ⟨t, ht, hbreaks, -⟩ | ⟨s', hs', hcontinues, -⟩ :=
                round_of_accepts hshape haccepts
              · exact Or.inr (Or.inl ⟨t, ht, hbreaks⟩)
              · exact Or.inl ⟨s', hs', hcontinues⟩

/-- A round that goes on has accepted a move. -/
theorem continues_of_round (hshape : (asked s).position.BoardShape) {s' : PlayState}
    (h : m.round s = .ok s') : Continues m s s' := by
  obtain ⟨s'', hs'', hcontinues⟩ | ⟨t, ht, -⟩ | ⟨ht, -⟩ | ⟨ht, -⟩ := round_cases m hshape
  · rw [h, Except.ok.injEq] at hs''
    exact hs'' ▸ hcontinues
  all_goals
    rw [h] at ht
    cases ht

/-- A round left by `break` was left for one of the reasons of the source. -/
theorem breaks_of_round (hshape : (asked s).position.BoardShape)
    (h : m.round s = .error (.broke t)) : Breaks m s t := by
  obtain ⟨s', hs', -⟩ | ⟨t', ht', hbreaks⟩ | ⟨ht', -⟩ | ⟨ht', -⟩ := round_cases m hshape
  · rw [h] at hs'
    cases hs'
  · rw [h] at ht'
    cases ht'
    exact hbreaks
  · rw [h] at ht'
    cases ht'
  · rw [h] at ht'
    cases ht'

end Match

end GomokuCli
