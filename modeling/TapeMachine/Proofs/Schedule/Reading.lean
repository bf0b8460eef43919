import TapeMachine.Proofs.Machine.Reading
import TapeMachine.Proofs.Schedule.Bounds
import TapeMachine.Proofs.Schedule.Pending
import TapeMachine.Proofs.Session.Contact

/-! Reading in a run.

A step that waits is left by an answer of its source only (`Governed.answered_of_ends`), and
what is recorded as come are these answers (`heard_eq_answers`). So as long as a machine is not
reset and its source does not fail, every call of the source is for one `,`, which is completed
with the answer or still waits for it, and the account of answers, calls and reads goes on from
move to move (`play_ledger`). -/
namespace TapeMachine

namespace Bench
variable {b b' : Bench} {f : Focus} {fs rest : List Frame} {x : Turn} {i epoch : Nat}

/-- A step that waits is left only when the source has answered. -/
theorem Yields.reading_or_answered (h : b.Yields f fs b' x)
    (hr : .reading i epoch :: rest <:+ fs) : .reading i epoch :: rest <:+ x.frames ∨
      ∃ a, f = .answered a ∧ fs = .reading i epoch :: rest := by
  have htail : ∀ {y : Frame} {gs : List Frame}, .reading i epoch :: rest <:+ y :: gs →
      y ≠ .reading i epoch → .reading i epoch :: rest <:+ gs := fun hx hy =>
    (List.suffix_cons_iff.mp hx).resolve_left fun heq => hy (List.cons.inj heq).1.symm
  have hcons : ∀ {y : Frame} {gs : List Frame}, .reading i epoch :: rest <:+ gs →
      .reading i epoch :: rest <:+ y :: gs := fun hx => hx.trans (List.suffix_cons _ _)
  cases h with
  | hears j epoch' a ho =>
    rcases List.suffix_cons_iff.mp hr with heq | hr
    · exact .inr ⟨a, rfl, heq.symm⟩
    · exact .inl hr
  | done o => cases List.suffix_nil.mp hr
  | steps | joins | turns | next | again | sleeps | waits => exact .inl hr
  | asks | enters | starts | begins => exact .inl (hcons hr)
  | awaits => exact .inl (hcons (hcons hr))
  | stops | breaks | notes | takes | answers => exact .inl (htail hr nofun)
  | fails j e hy | settles j v s hy => exact .inl (htail hr (by rcases hy with rfl | rfl <;> nofun))
  | rests | signals => exact .inl (hcons (htail hr nofun))
  | calls => exact .inl (hcons (hcons (htail hr nofun)))

end Bench

namespace Scheduler
open Machine

variable {s s₀ : Scheduler} {x : Move} {moves a b : List Move} {i : Nat} {m m' : Machine}

/-- A step of machine `i` is about to hear that its source has failed. -/
def SourceFails (s : Scheduler) (i : Nat) : Prop :=
  match s.roster.current? with
  | some (_, .answered (.error _), .reading j _ :: _) => j = i
  | _ => False

instance (s : Scheduler) (i : Nat) : Decidable (s.SourceFails i) := by
  unfold SourceFails
  split <;> infer_instance

/-- The text with which the source answers a step of machine `i` in a move, if it does not
fail. -/
def answer? (s : Scheduler) (i : Nat) : Move → Option Text
  | .turn =>
    match s.roster.current? with
    | some (_, .answered (.ok text), .reading j _ :: _) => if j = i then some text else none
    | _ => none
  | _ => none

/-- The texts that the source has returned for the steps of machine `i`, in order. -/
def answers (s : Scheduler) (i : Nat) : List Move → List Text
  | [] => []
  | x :: rest => (s.answer? i x).toList ++ (s.move x).answers i rest

/-- The same as it was recorded. -/
def heard (s : Scheduler) (i : Nat) : List Text := s.bench.signs.filterMap (Sign.heard? i)

/-- How often the source was called for a step of machine `i`. -/
def asked (s : Scheduler) (i : Nat) : Nat := s.bench.signs.count (.asked i)

/-- The states of machine `i` around a `,` that a move completes. -/
def comma? (s : Scheduler) (i : Nat) (x : Move) : Option (Machine × Machine) :=
  match s.bench.machine? i, (s.move x).bench.machine? i with
  | some m, some m' => m.comma? m'
  | _, _ => none

/-- The states of machine `i` around every `,` that a run completes, in order. -/
def commas (s : Scheduler) (i : Nat) : List Move → List (Machine × Machine)
  | [] => []
  | x :: rest => (s.comma? i x).toList ++ (s.move x).commas i rest

theorem answers_append (s : Scheduler) (i : Nat) (a b : List Move) :
    s.answers i (a ++ b) = s.answers i a ++ (s.play a).answers i b := by
  induction a generalizing s with
  | nil => rfl
  | cons x rest ih =>
    rw [List.cons_append, answers, answers, ih (s.move x), List.append_assoc]
    rfl

theorem commas_append (s : Scheduler) (i : Nat) (a b : List Move) :
    s.commas i (a ++ b) = s.commas i a ++ (s.play a).commas i b := by
  induction a generalizing s with
  | nil => rfl
  | cons x rest ih =>
    rw [List.cons_append, commas, commas, ih (s.move x), List.append_assoc]
    rfl

/-- The source is called for machine `i` only in a move that calls a step at a `,` which finds
it bound and the input used up, and then once. -/
def AsksDuly (i : Nat) (s : Scheduler) (x : Move) : Prop :=
  (s.move x).asked i = s.asked i ∨ (s.move x).asked i = s.asked i + 1 ∧ s.Steps i ∧
    ∃ m, s.bench.machine? i = some m ∧ m.stepping = false ∧ m.Exhausted

/-! ### The end of a wait -/

/-- A step that waited and does not any more has got an answer from its source. -/
theorem Governed.answered_of_ends (h : s.Governed) (hx : s.Addresses x)
    (hm : s.bench.machine? i = some m) (hm' : (s.move x).bench.machine? i = some m')
    (hs : m.stepping = true) (hs' : m'.stepping = false) : x = .turn ∧ ∃ t a epoch rest,
      s.roster.current? = some (t, .answered a, .reading i epoch :: rest) := by
  obtain ⟨t, epoch, rest, f, fs, ht, hr⟩ := h.exists_pending hm hs
  have hlost : ¬ (s.move x).Pending t i epoch rest := fun hp => by
    rw [(h.move hx).stepping_of_pending hp hm'] at hs'
    cases hs'
  have hlt := Nat.lt_of_lt_of_le (Array.getElem?_eq_some_iff.mp ht).1
    (threads_size_le_move h.orderly x)
  have hy := Array.getElem?_eq_getElem hlt
  cases comes_of_move h.orderly hy with
  | stays ht₀ _ =>
    exact absurd ⟨f, fs, hy.trans (ht₀.symm.trans ht), hr⟩ hlost
  | spawned c hnone _ => cases hnone.symm.trans ht
  | turns f₀ fs₀ hturn hc _ heq =>
    cases (Roster.current?_eq_some_iff.mp hc).2.symm.trans ht
    rcases (h.yields hc).reading_or_answered hr with hstays | ⟨a, rfl, rfl⟩
    · rw [← Turn.frames_thread, ← heq] at hstays
      cases hz : (s.move x).roster.threads[t] with
      | finished o =>
        rw [hz] at hstays
        cases List.suffix_nil.mp hstays
      | active f' fs' =>
        rw [hz] at hstays
        exact absurd ⟨f', fs', hy.trans (congrArg some hz), hstays⟩ hlost
    · exact ⟨hturn, t, a, epoch, rest, hc⟩

theorem heard_of_answered {t j epoch : Nat} {a : Answer} {rest : List Frame}
    (hc : s.roster.current? = some (t, .answered a, .reading j epoch :: rest)) (i : Nat) :
    s.advance.heard i = s.heard i ++ (s.answer? i .turn).toList := by
  rw [heard, advance_of_some hc, answer?, hc]
  show (s.bench.endReading j epoch a rest).1.signs.filterMap _ = _
  cases a with
  | error e => exact (List.append_nil _).symm
  | ok text =>
    have hsigns : (s.bench.endReading j epoch (.ok text) rest).1.signs =
        s.bench.signs ++ [.answered j text] := by
      rw [Bench.endReading]
      split
      · simp [Event.sign?]
      · simp [Event.sign?]
    rw [hsigns, List.filterMap_append, heard]
    by_cases hij : j = i
    · simp [Sign.heard?, hij]
    · simp [Sign.heard?, hij]

/-- What is recorded as come is what the source has returned. -/
theorem Governed.heard_move (h : s.Governed) (hx : s.Addresses x) (i : Nat) :
    (s.move x).heard i = s.heard i ++ (s.answer? i x).toList := by
  by_cases hans : x = .turn ∧ ∃ t a j epoch rest,
      s.roster.current? = some (t, .answered a, .reading j epoch :: rest)
  · obtain ⟨rfl, t, a, j, epoch, rest, hc⟩ := hans
    exact heard_of_answered hc i
  · obtain ⟨sg, hstir, hsigns⟩ := (move_moved h.sound x).stir
    have hnone : s.answer? i x = none := by
      cases x with
      | turn =>
        rw [answer?]
        split
        next hc => exact absurd ⟨rfl, _, _, _, _, _, hc⟩ hans
        next => rfl
      | _ => rfl
    rw [hnone, Option.toList_none, List.append_nil, heard, hsigns, List.filterMap_append]
    rcases hstir.heard i with hnil | ⟨n, n', hn, hn', hs, hs'⟩
    · rw [hnil, List.append_nil]
      rfl
    · obtain ⟨m, hm, rfl⟩ := Bench.exists_of_getElem?_bare hn
      obtain ⟨m', hm', rfl⟩ := Bench.exists_of_getElem?_bare hn'
      obtain ⟨hturn, t, a, epoch, rest, hc⟩ := h.answered_of_ends hx hm hm' hs hs'
      exact absurd ⟨hturn, t, a, i, epoch, rest, hc⟩ hans

/-! ### Moves -/

/-- The wait for a source that does not fail ends with the text. -/
theorem Governed.not_drop {late : Option Text} (h : s.Governed) (hx : s.Addresses x)
    (hf : ¬ s.SourceFails i) (hm : s.bench.machine? i = some m)
    (hm' : (s.move x).bench.machine? i = some m') (he : m.epoch = 0) :
    ¬ m.bare.Does (.drop late) m'.bare := by
  intro hd
  generalize hn : m'.bare = n at hd
  cases hd with
  | drop _ hw _ =>
    have hs' : m'.stepping = false := congrArg (·.stepping) hn
    have hsteps : m'.steps = m.steps := congrArg (·.steps) hn
    obtain ⟨rfl, t, a, epoch, rest, hc⟩ := h.answered_of_ends hx hm hm' hw hs'
    obtain ⟨m₁, o, hhears, hm₁, -⟩ := advance_answered hm hc
    obtain rfl := Option.some.inj (hm₁.symm.trans hm')
    cases hhears with
    | text text _ =>
      have hinner := (inner_consume ({m with stepping := false}.receive text)).steps
      have hmore : m.steps + 1 = m.steps := (congrArg (· + 1) hinner).symm.trans hsteps
      omega
    | late text hne =>
      have hle := (h.reading hm (Roster.current?_eq_some_iff.mp hc).2 List.mem_cons_self).2
      omega
    | failure e =>
      refine hf ?_
      rw [SourceFails, hc]

/-- Unless the source fails, what a move has to do with the input of a machine that is never
reset is one entry in the account. -/
theorem Governed.deals_move (h : s.Governed) (hx : s.Addresses x) (hf : ¬ s.SourceFails i)
    (hm : s.bench.machine? i = some m) (hm' : (s.move x).bench.machine? i = some m')
    (he : m'.epoch = 0) : ∃ ts k, Deals m m' ts k ∧ (s.move x).heard i = s.heard i ++ ts ∧
      (s.move x).asked i = s.asked i + k := by
  obtain ⟨sg, hstir, hsigns⟩ := (move_moved h.sound x).stir
  have he₀ : m.epoch = 0 := Nat.le_zero.mp (he ▸ h.epoch_le x hm hm')
  have hheard : (s.move x).heard i = s.heard i ++ sg.filterMap (Sign.heard? i) := by
    rw [heard, hsigns, List.filterMap_append]
    rfl
  have hasked : (s.move x).asked i = s.asked i + sg.count (.asked i) := by
    rw [asked, hsigns, List.count_append]
    rfl
  refine ⟨_, _, ?_, hheard, hasked⟩
  rcases hstir.act_at (Bench.getElem?_bare_of hm) (Bench.getElem?_bare_of hm')
    (he.trans he₀.symm) with ⟨heq, hunread⟩ | ⟨a, more, hd, rfl, hunread⟩
  · rw [heard_eq_nil hunread, asked_eq_zero hunread]
    exact Deals.of_bare (heq ▸ .refl _)
  · rw [List.filterMap_append, heard_eq_nil hunread, List.append_nil, List.count_append,
      asked_eq_zero hunread]
    refine (hd.deals (fun late hlate => ?_) i).of_bare
    exact h.not_drop hx hf hm hm' he₀ (hlate ▸ hd)

/-- The source is called in no other moves than it should be. -/
theorem Governed.asksDuly_move (h : s.Governed) (x : Move)
    (hle : ∀ m, s.bench.machine? i = some m → m.cursor ≤ m.input.size) : s.AsksDuly i x := by
  obtain ⟨sg, hstir, hsigns⟩ := (move_moved h.sound x).stir
  have hasked : (s.move x).asked i = s.asked i + sg.count (.asked i) := by
    rw [asked, hsigns, List.count_append]
    rfl
  rcases hstir.asked i with hzero | ⟨hone, n, hn, hst⟩
  · exact .inl (by rw [hasked, hzero, Nat.add_zero])
  · obtain ⟨sg', hsigns', hreaches⟩ := (s.reaches_move x).signs
    obtain rfl := List.append_cancel_left (hsigns'.symm.trans hsigns)
    obtain ⟨m, hm, rfl⟩ := Bench.exists_of_getElem?_bare hn
    obtain ⟨hs, hasks⟩ := stance_eq_request_iff.mp hst
    have hmem : Sign.asked i ∈ sg' := List.count_pos_iff.mp (hone ▸ Nat.one_pos)
    exact .inr ⟨by rw [hasked, hone], hreaches _ hmem i rfl, m, hm, hs,
      (exhausted_iff (hle m hm)).mpr hasks⟩

/-- Nothing is said and asked of a machine before it is made. -/
theorem unread_move (h : s.Sound) (x : Move) (hm : s.bench.machine? i = none) :
    (s.move x).heard i = s.heard i ∧ (s.move x).asked i = s.asked i ∧ s.comma? i x = none ∧
      ∀ m, (s.move x).bench.machine? i = some m → m.bare.IsNew := by
  obtain ⟨sg, hstir, hsigns⟩ := (move_moved h x).stir
  have hi : s.bench.bare.length ≤ i := by
    rw [Bench.length_bare]
    exact Array.getElem?_eq_none_iff.mp hm
  have hunread := hstir.unread hi
  refine ⟨?_, ?_, ?_, fun m hm' => hstir.isNew_of_length_le hi (Bench.getElem?_bare_of hm')⟩
  · rw [heard, hsigns, List.filterMap_append, heard_eq_nil hunread, List.append_nil]
    rfl
  · rw [asked, hsigns, List.count_append, asked_eq_zero hunread]
    rfl
  · rw [comma?, hm]

/-! ### Runs -/

theorem Starts.signs (hs : s₀.Starts) : s₀.bench.signs = [] := by
  cases hs with
  | machine hb =>
    obtain ⟨m, -, -, -, hsigns, -⟩ := exists_of_make hb
    exact hsigns
  | session => rfl

theorem heard_eq_answers (hs : s₀.Starts) (ha : s₀.Along Addresses moves) (i : Nat) :
    (s₀.play moves).heard i = s₀.answers i moves := by
  induction moves using List.reverseRecOn with
  | nil =>
    show s₀.bench.signs.filterMap _ = _
    rw [hs.signs]
    rfl
  | append_singleton moves x ih =>
    obtain ⟨ha₀, hx, -⟩ := (along_append _ _ _ _).mp ha
    rw [play_concat, (play_governed hs ha₀).heard_move hx, ih ha₀, answers_append, answers, answers,
      List.append_nil]

/-- What holds of texts, calls and reads of a new machine and is kept in every entry of its
account, holds at any time, unless the machine was reset or its source has failed. -/
theorem play_deals {P : List Text → Nat → List (Machine × Machine) → Machine → Prop}
    (hnew : ∀ m : Machine, m.bare.IsNew → P [] 0 [] m)
    (hdeal : ∀ {texts calls cs m m' ts k}, P texts calls cs m → Deals m m' ts k →
      m'.cursor ≤ m'.input.size → P (texts ++ ts) (calls + k) (cs ++ (m.comma? m').toList) m')
    (hs : s₀.Starts) (ha : s₀.Along Addresses moves)
    (hf : s₀.Along (fun s _ => ¬ s.SourceFails i) moves) :
    ((s₀.play moves).bench.machine? i = none →
      (s₀.play moves).heard i = [] ∧ (s₀.play moves).asked i = 0 ∧ s₀.commas i moves = []) ∧
    ∀ m, (s₀.play moves).bench.machine? i = some m → m.epoch = 0 →
      P ((s₀.play moves).heard i) ((s₀.play moves).asked i) (s₀.commas i moves) m := by
  induction moves using List.reverseRecOn with
  | nil =>
    have hheard : (s₀.play []).heard i = [] := by
      show s₀.bench.signs.filterMap _ = []
      rw [hs.signs]
      rfl
    have hasked : (s₀.play []).asked i = 0 := by
      show s₀.bench.signs.count _ = 0
      rw [hs.signs]
      rfl
    rw [hheard, hasked]
    refine ⟨fun _ => ⟨rfl, rfl, rfl⟩, fun m hm _ => ?_⟩
    exact hnew m (hs.isNew _ (List.mem_of_getElem? (Bench.getElem?_bare_of hm)))
  | append_singleton moves x ih =>
    obtain ⟨ha₀, hx, -⟩ := (along_append _ _ _ _).mp ha
    obtain ⟨hf₀, hfx, -⟩ := (along_append _ _ _ _).mp hf
    obtain ⟨hnone, hsome⟩ := ih ha₀ hf₀
    have h := play_governed hs ha₀
    have hcommas : s₀.commas i (moves ++ [x]) =
        s₀.commas i moves ++ ((s₀.play moves).comma? i x).toList := by
      rw [commas_append, commas, commas, List.append_nil]
    rw [hcommas, play_concat]
    cases hm : (s₀.play moves).bench.machine? i with
    | none =>
      obtain ⟨hheard, hasked, hcomma, hmade⟩ := unread_move h.sound x hm
      obtain ⟨hheard₀, hasked₀, hcommas₀⟩ := hnone hm
      rw [hheard, hasked, hcomma, hheard₀, hasked₀, hcommas₀]
      exact ⟨fun _ => ⟨rfl, rfl, rfl⟩, fun m hm' _ => hnew m (hmade m hm')⟩
    | some m =>
      obtain ⟨m', hm', -⟩ := h.machine_move x hm
      rw [hm']
      refine ⟨nofun, fun m₁ hm₁ he => ?_⟩
      obtain rfl := Option.some.inj hm₁
      have he₀ : m.epoch = 0 := Nat.le_zero.mp (he ▸ h.epoch_le x hm hm')
      obtain ⟨ts, k, hdeals, hheard, hasked⟩ := h.deals_move hx hfx hm hm' he
      have hlast : (s₀.play (moves ++ [x])).bench.machine? i = some m' :=
        play_concat s₀ moves x ▸ hm'
      have hle := (play_tidy hs hlast).cursor_le
      have hcomma : (s₀.play moves).comma? i x = m.comma? m' := by rw [comma?, hm, hm']
      rw [hheard, hasked, hcomma]
      exact hdeal (hsome m hm he₀) hdeals hle

/-- The account of a machine at any time, unless it was reset or its source has failed. -/
theorem play_ledger (hs : s₀.Starts) (ha : s₀.Along Addresses moves)
    (hf : s₀.Along (fun s _ => ¬ s.SourceFails i) moves) :
    ((s₀.play moves).bench.machine? i = none →
      (s₀.play moves).heard i = [] ∧ (s₀.play moves).asked i = 0 ∧ s₀.commas i moves = []) ∧
    ∀ m, (s₀.play moves).bench.machine? i = some m → m.epoch = 0 →
      Ledger ((s₀.play moves).heard i) ((s₀.play moves).asked i) (s₀.commas i moves) m :=
  play_deals (fun _ hnew => hnew.ledger.of_bare) Ledger.deal hs ha hf

/-- The source is called at no other time. -/
theorem play_asksDuly (hs : s₀.Starts) (ha : s₀.Along Addresses moves) :
    s₀.Along (AsksDuly i) moves := by
  induction moves using List.reverseRecOn with
  | nil => exact trivial
  | append_singleton moves x ih =>
    obtain ⟨ha₀, -⟩ := (along_append _ _ _ _).mp ha
    have h := play_governed hs ha₀
    exact (along_append _ _ _ _).mpr
      ⟨ih ha₀, h.asksDuly_move x fun m hm => (play_tidy hs hm).cursor_le, trivial⟩

/-- As long as a machine is not reset and its source does not fail, its input is the texts that
the source has returned, one after the other; the source was called once for every `,` that
found it bound and the input used up, and at no other time; and every `,` has consumed the next
character of the input or found none, so that the cursor counts the characters consumed. -/
theorem play_contract (hs : s₀.Starts) (ha : s₀.Along Addresses moves)
    (hf : s₀.Along (fun s _ => ¬ s.SourceFails i) moves)
    (hm : (s₀.play moves).bench.machine? i = some m) (he : m.epoch = 0) :
    Ledger (s₀.answers i moves) ((s₀.play moves).asked i) (s₀.commas i moves) m ∧
      m.cursor = ((s₀.commas i moves).filterMap fun p => p.1.taken? p.2).length ∧
      s₀.Along (AsksDuly i) moves := by
  have hledger := (play_ledger hs ha hf).2 m hm he
  rw [heard_eq_answers hs ha i] at hledger
  exact ⟨hledger, hledger.cursor, play_asksDuly hs ha⟩

/-- Three `,` in a row: the first finds two characters, the third none. -/
theorem play_contract_row : ∃ b s m,
    Bench.make {source := some (.scripted fun n =>
      .now [] (.ok (if n = 1 then some ['a', 'b'] else none)))} ⟨#[',', ',', ',']⟩
      {memorySize := .integer 1, cooperative := false} = .ok b ∧ s = ({bench := b} : Scheduler) ∧
    (s.play (Move.alone (.run 0) 13)).bench.machine? 0 = some m ∧ m.epoch = 0 ∧
    m.counter = 3 ∧ m.cursor = 2 ∧ s.answers 0 (Move.alone (.run 0) 13) = [['a', 'b'], []] ∧
    Ledger (s.answers 0 (Move.alone (.run 0) 13)) 2 (s.commas 0 (Move.alone (.run 0) 13)) m := by
  obtain ⟨b, hb⟩ : ∃ b, Bench.make {source := some (.scripted fun n =>
      .now [] (.ok (if n = 1 then some ['a', 'b'] else none)))} ⟨#[',', ',', ',']⟩
      {memorySize := .integer 1, cooperative := false} = .ok b := ⟨_, rfl⟩
  have hs : Starts {bench := b} := .machine hb
  cases hb
  have hcontract := play_contract (i := 0) hs
    (show Along Addresses _ (Move.alone (.run 0) 13) by decide) (by decide) rfl rfl
  exact ⟨_, _, _, rfl, rfl, rfl, rfl, rfl, rfl, rfl, hcontract.1⟩

end Scheduler
end TapeMachine
