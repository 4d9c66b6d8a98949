import X86OsDev.Xv6.ShRunJoin

/-! # The shell is done with a line after finitely many steps

Each command has a weight that bounds the steps of the shell for it: each step
of a process of the shell makes the weight of all processes smaller, and the
steps of the programs leave it alone.
-/
namespace X86OsDev.Xv6.ShRun
open Sh ForkJoin Transition

/-- The steps that `runcmd` takes for a command, its programs apart. -/
def runWeight : Cmd → ℕ
  | .exec _ => 3
  | .redir cmd _ _ _ _ => runWeight cmd + 2
  | .list left right => runWeight left + runWeight right + 2
  | .pipe left right => runWeight left + runWeight right + 16
  | .back cmd => runWeight cmd + 2

def parseWeight : Except Stop Cmd → ℕ
  | .ok cmd => runWeight cmd + 1
  | .error _ => 3

/-- The steps that are left for a process and for the children that it will fork. -/
def Point.weight : Point → ℕ
  | .prompt | .program _ => 0
  | .exit | .mainWait => 1
  | .printf _ | .pipeWait2 => 2
  | .pipeWait1 => 3
  | .parentClose1 _ => 4
  | .parentClose0 _ _ => 5
  | .mainFork parsed => parseWeight parsed + 2
  | .parse parsed => parseWeight parsed
  | .run cmd => runWeight cmd
  | .redirOpen cmd _ _ _ => runWeight cmd + 1
  | .listWait right => runWeight right + 1
  | .leftFork _ _ left right => runWeight left + runWeight right + 15
  | .rightFork _ _ right => runWeight right + 10
  | .closeStd _ _ _ cmd => runWeight cmd + 4
  | .dupEnd _ _ _ cmd => runWeight cmd + 3
  | .close0 _ _ cmd => runWeight cmd + 2
  | .close1 _ cmd => runWeight cmd + 1

def Outcome.weight : Outcome → ℕ
  | .go P => P.point.weight
  | .fork _ P C => P.point.weight + C.point.weight
  | .exits => 0

def State.weight (s : State) : ℕ := s.procs.weight fun P => P.point.weight

def Point.isProgram : Point → Bool
  | .program _ => true
  | _ => false

/-- Whether the action is a step of a process of the shell, `getcmd` apart. -/
def State.ofShell (s : State) : Action → Bool
  | .shell _ _ => true
  | .wait p _ | .noChild p => ((s.proc? p).map fun P => !P.point.isProgram).getD false
  | _ => false

/-- The number of steps of the shell in a run. -/
def shellSteps : State → List Action → ℕ
  | _, [] => 0
  | s, a :: acts => (s.ofShell a).toNat + ((step s a).map fun s' => shellSteps s' acts).getD 0

variable {s s' : State} {q : Name} {P : Proc} {out : Outcome} {a : Action}

theorem three_le_runWeight (cmd : Cmd) : 3 ≤ runWeight cmd := by
  cases cmd with
  | exec argv => exact le_rfl
  | redir cmd file efile mode fd =>
    have h := three_le_runWeight cmd
    exact h.trans (Nat.le_add_right _ 2)
  | list left right =>
    have h := three_le_runWeight left
    exact h.trans ((Nat.le_add_right _ _).trans (Nat.le_add_right _ 2))
  | pipe left right =>
    have h := three_le_runWeight left
    exact h.trans ((Nat.le_add_right _ _).trans (Nat.le_add_right _ 16))
  | back cmd =>
    have h := three_le_runWeight cmd
    exact h.trans (Nat.le_add_right _ 2)

theorem fork1_weight {ok : Bool} {role : Role} {parent child : Point} {n : ℕ}
    (h : parent.weight + child.weight < n) (hn : 2 < n) : (fork1 ok role P parent child).weight < n := by
  cases ok with
  | true => exact h
  | false => exact hn

theorem runcmd_weight {ok : Bool} (cmd : Cmd) : (runcmd q ok P cmd).weight < runWeight cmd := by
  cases cmd with
  | exec argv =>
    cases argv with
    | nil => exact (by decide : 1 < 3)
    | cons argv0 argv =>
      cases ok with
      | true => exact (by decide : 0 < 3)
      | false => exact (by decide : 2 < 3)
  | redir cmd file efile mode fd => exact Nat.lt_succ_self _
  | list left right =>
    have h := three_le_runWeight left
    refine fork1_weight ?_ ?_
    · simp only [Point.weight,runWeight]
      omega
    · simp only [runWeight]
      omega
  | pipe left right =>
    have h := three_le_runWeight left
    unfold runcmd
    dsimp only
    split
    · simp only [Outcome.weight,Point.weight,runWeight]
      omega
    · simp only [Outcome.weight,Point.weight,runWeight]
      omega
  | back cmd =>
    have h := three_le_runWeight cmd
    refine fork1_weight ?_ ?_
    · simp only [Point.weight,runWeight]
      omega
    · simp only [runWeight]
      omega

theorem next_weight {ok : Bool} (h : next q ok P = some out) : out.weight < P.point.weight := by
  obtain ⟨pt,t,l⟩ := P
  unfold next at h
  dsimp only at h
  split at h
  all_goals cases h
  · refine fork1_weight ?_ ?_ <;> simp only [Point.weight,parseWeight] <;> omega
  · refine fork1_weight ?_ ?_ <;> simp only [Point.weight,parseWeight] <;> omega
  · exact Nat.lt_succ_self _
  · exact Nat.lt_succ_self _
  · exact runcmd_weight _
  · rename_i cmd file efile mode
    have h := three_le_runWeight cmd
    unfold redirOpen
    split <;> simp only [Outcome.weight,Point.weight] <;> omega
  · refine fork1_weight ?_ ?_ <;> simp only [Point.weight] <;> omega
  · refine fork1_weight ?_ ?_ <;> simp only [Point.weight] <;> omega
  all_goals simp only [Outcome.weight,Point.weight]; omega

theorem afterWait_weight {pt pt' : Point} (h : afterWait pt = some pt') :
    (!pt.isProgram).toNat + pt'.weight ≤ pt.weight := by
  cases pt <;> cases h
  case listWait right => exact (Nat.add_comm 1 _).le
  case program argv => exact le_rfl
  all_goals decide

theorem program_weight {op : Op} {argv : List (ℕ × ℕ)} (h : P.point = .program argv) : (program P op).weight = 0 := by
  obtain ⟨pt,t,l⟩ := P
  cases h
  cases op <;> rfl

/-- The weight after what `q` does. -/
theorem does_weight (out : Outcome) (h : Inv s) (hq : s.procs.slot q = .live P) :
    (s.does q out).weight + P.point.weight = s.weight + out.weight := by
  have hn : q ∈ s.procs.names := h.tree.named q (by rw [hq]; simp)
  cases out with
  | go P' => exact weight_put hn hq
  | fork role P' C =>
    rw [Outcome.weight,← Nat.add_assoc]
    exact weight_fork hn hq (h.fresh q role)
  | exits => exact weight_exit hn hq

theorem ofShell_of_live {p : Name} (hq : s.procs.slot q = .live P) :
    s.ofShell (.wait q p) = !P.point.isProgram ∧ s.ofShell (.noChild q) = !P.point.isProgram := by
  simp [State.ofShell,proc?_of_live hq]

/-- A step of the shell makes the weight smaller, and another one does not make it larger. -/
theorem step_weight (h : Inv s) (hget : ∀ line, a ≠ .getcmd line) (hs : step s a = some s') :
    (s.ofShell a).toNat + s'.weight ≤ s.weight := by
  cases step_cases hs with
  | does a q P out hq hd =>
    have hw := does_weight out h hq
    cases hd with
    | getcmd line P hP => exact absurd rfl (hget line)
    | shell q ok P out hout =>
      have hlt := next_weight hout
      change 1 + _ ≤ _
      omega
    | program q op P argv hP =>
      rw [program_weight hP] at hw
      change 0 + _ ≤ _
      omega
    | noChild q P point hpoint hno =>
      have hle := afterWait_weight hpoint
      rw [(ofShell_of_live (p := q) hq).2]
      change _ = s.weight + point.weight at hw
      omega
  | wait p q P point hp hpoint hq hz =>
    have hle := afterWait_weight hpoint
    rw [(ofShell_of_live hp).1]
    have hn : p ∈ s.procs.names := h.tree.named p (by rw [hp]; simp)
    have hnq : q ∈ s.procs.names := h.tree.named q (by rw [hz]; simp)
    have hw := weight_wait (w := fun P => P.point.weight) { P with point := point } hn hnq hp hz
    change State.weight { s with procs := s.procs.wait p q { P with point := point } } + P.point.weight =
      s.weight + point.weight at hw
    omega
  | init q hq hz =>
    have hn : q ∈ s.procs.names := h.tree.named q (by rw [hz]; simp)
    exact (Nat.zero_add _).le.trans (weight_free hn hz).le

/-- In a run without `getcmd` the steps of the shell are at most as many as the weight that is lost. -/
theorem shellSteps_le (h : Inv s) (acts : List Action) (hget : ∀ a ∈ acts, ∀ line, a ≠ .getcmd line)
    (hs : acts.foldlM step s = some s') : shellSteps s acts + s'.weight ≤ s.weight := by
  induction acts generalizing s with
  | nil =>
    cases hs
    exact (Nat.zero_add _).le
  | cons a acts ih =>
    rw [List.foldlM_cons,Option.bind_eq_bind,Option.bind_eq_some_iff] at hs
    obtain ⟨u,hu,hs⟩ := hs
    have h1 := step_weight h (hget a (List.mem_cons_self)) hu
    have h2 := ih (h.step hu) (fun b hb => hget b (List.mem_cons_of_mem a hb)) hs
    rw [shellSteps,hu,Option.map_some,Option.getD_some]
    omega

/-- From a line that `getcmd` returns up to the next one the shell takes no more steps, in whatever order and
whatever its programs do, than the weight of the line and what is left of commands in the background. -/
theorem line_ends {t : Table} {line : Line} {acts : List Action} (h : Reached t s)
    (hget : ∀ a ∈ acts, ∀ line, a ≠ .getcmd line) (hs : (.getcmd line :: acts).foldlM step s = some s') :
    shellSteps s (.getcmd line :: acts) + s'.weight ≤ s.weight + (getcmd line).weight := by
  rw [List.foldlM_cons,Option.bind_eq_bind,Option.bind_eq_some_iff] at hs
  obtain ⟨u,hu,hs⟩ := hs
  have hi := h.inv
  have h2 := shellSteps_le (hi.step hu) acts hget hs
  have h1 : u.weight = s.weight + (getcmd line).weight := by
    cases step_cases hu with
    | does a q P out hq hd =>
      have hw := does_weight out hi hq
      cases hd with
      | getcmd line P hP =>
        rw [hP] at hw
        exact hw
  rw [shellSteps,hu,Option.map_some,Option.getD_some,← h1]
  exact (Nat.add_assoc _ _ _).le.trans ((Nat.zero_add _).le.trans h2)

theorem line_ends_empty : ∃ s, emptyLine.foldlM step (start consoles) = some s ∧
    shellSteps (start consoles) emptyLine + s.weight ≤ (start consoles).weight + 6 := by
  obtain ⟨s,hs⟩ : ∃ s, emptyLine.foldlM step (start consoles) = some s := ⟨_,rfl⟩
  exact ⟨s,hs,line_ends (t := consoles) (.base rfl) (by simp) hs⟩

end X86OsDev.Xv6.ShRun
