import TapeMachine.Proofs.Schedule.Layer
import TapeMachine.Proofs.Schedule.Serial

/-! Queues.

Where all texts come out of a queue, a text goes from hand to hand: the queue gives it to
the thread of a step that waits for one, and in its next turn that thread gives it to the
machine. So a turn asks, takes a text, hands it on, or leaves the whole traffic alone
(`Bench.Draws`); what was asked for, what is still in the queue and what has come (`Stock`)
changes in no other way. -/
namespace TapeMachine

/-- What a source still has, how often it was called, and the texts that came for steps. -/
structure Stock where
  source : Option Source
  requests : Nat
  texts : List Text

/-- The text that a thread has taken out of the queue and not yet handed on. -/
def Focus.inHand : Focus → List Text
  | .answered (.ok text) => [text]
  | _ => []

def Thread.inHand : Thread → List Text
  | .active f _ => f.inHand
  | .finished _ => []

/-- No source is at work on a reply, and no answer is a failure. -/
structure Focus.Supplied (f : Focus) (fs : List Frame) : Prop where
  answer : ∀ e, f ≠ .answered (.error e)
  frames : ∀ deeds answer, .replying deeds answer ∉ fs

theorem Focus.supplied_call (c : Call) : Focus.Supplied (.call c) [] where
  answer _ h := by cases h
  frames _ _ h := by cases h

namespace Focus.Supplied
variable {f f' : Focus} {fs fs' : List Frame}

theorem of_subset (h : f.Supplied fs) (hf : ∀ e, f' ≠ .answered (.error e)) (hs : fs' ⊆ fs) :
    f'.Supplied fs' := ⟨hf, fun deeds answer hm => h.frames deeds answer (hs hm)⟩

theorem push {x : Frame} (h : f.Supplied fs) (hf : ∀ e, f' ≠ .answered (.error e))
    (hx : ∀ deeds answer, x ≠ .replying deeds answer) : f'.Supplied (x :: fs) := by
  refine ⟨hf, fun deeds answer hm => ?_⟩
  rcases List.mem_cons.mp hm with heq | hm
  · exact hx deeds answer heq.symm
  · exact h.frames deeds answer hm

end Focus.Supplied

/-- No step begins or ends, and nothing is done for a step that waits. -/
inductive Focus.Aside : Focus → List Frame → Prop
  | call {fs : List Frame} (c : Call) : (∀ i, c ≠ .step i) → Aside (.call c) fs
  | returned {fs : List Frame} (o : Outcome) : Aside (.returned o) fs
  | looping {fs : List Frame} (i : Nat) : Aside .resumed (.looping i :: fs)

/-- Where no reply is on its way, a turn is of one of four kinds. -/
theorem Focus.Fits.kinds {f : Focus} {fs : List Frame} (hf : f.Fits fs) (hs : f.Supplied fs) :
    f.Aside fs ∨ (∃ i, f = .call (.step i)) ∨
      (∃ i epoch text rest, f = .answered (.ok text) ∧ fs = .reading i epoch :: rest) ∨
      ∃ rest, f = .resumed ∧ fs = .getting :: rest := by
  cases hf with
  | call c _ =>
    by_cases hc : ∃ i, c = .step i
    · obtain ⟨i, rfl⟩ := hc
      exact .inr (.inl ⟨i, rfl⟩)
    · exact .inl (.call c fun i hi => hc ⟨i, hi⟩)
  | returned o _ => exact .inl (.returned o)
  | @answered rest a i epoch _ =>
    cases a with
    | ok text => exact .inr (.inr (.inl ⟨i, epoch, text, rest, rfl, rfl⟩))
    | error e => exact absurd rfl (hs.answer e)
  | looping i _ => exact .inl (.looping i)
  | getting i epoch _ => exact .inr (.inr (.inr ⟨_, rfl, rfl⟩))
  | replying deeds answer i epoch _ => exact absurd (List.mem_cons_self ..) (hs.frames _ _)

namespace Bench

def stock (b : Bench) : Stock := ⟨b.source, b.requests, b.texts⟩

variable {b b' : Bench} {f : Focus} {fs : List Frame} {x : Turn} {i : Nat}

/-! ### What leaves the stock alone -/

theorem texts_record (b : Bench) (e : Event) :
    (b.record e).texts = b.texts ++ (e.sign?.bind Sign.text?).toList := by
  rw [texts, signs_record, List.filterMap_append]
  cases e.sign? with
  | none => rfl
  | some g => cases h : g.text? <;> simp [texts, h]

theorem stock_record (b : Bench) {e : Event} (he : e.sign?.bind Sign.text? = none) :
    (b.record e).stock = b.stock := by
  rw [stock, texts_record, he, Option.toList_none, List.append_nil]
  rfl

@[simp] theorem stock_log (b : Bench) (n : Notice) : (b.log n).stock = b.stock :=
  stock_record b (by cases n <;> rfl)

@[simp] theorem stock_update (b : Bench) (i : Nat) (g : Machine → Machine) :
    (b.update i g).stock = b.stock := rfl

theorem stock_signalMachine (b : Bench) (i : Nat) (g : Signal) :
    (b.signalMachine i g).stock = b.stock := by
  cases g with
  | pause => rfl
  | reset => exact stock_log _ _

theorem stock_signal (b : Bench) (g : Signal) : (b.signal g).stock = b.stock := by
  rw [signal]
  split
  next s _ =>
    cases g with
    | pause =>
      simp only [signalSession]
      split
      · rfl
      · rfl
    | reset =>
      simp only [signalSession]
      split
      · exact stock_signalMachine b _ .reset
      · rfl
  next => exact stock_signalMachine b 0 g

theorem stock_obey (b : Bench) (waits : Bool) (gs : List Signal) :
    (b.obey waits gs).stock = b.stock := by
  induction gs generalizing b with
  | nil => rfl
  | cons g rest ih =>
    exact (ih _).trans ((stock_record _ rfl).trans (stock_signal b g))

theorem stock_deliver (b : Bench) (i : Nat) (c : Char) : (b.deliver i c).1.stock = b.stock := by
  have hcalled : ({b with deliveries := b.deliveries + 1}.record
      (.emitted i c b.outputSize?)).stock = b.stock := stock_record _ rfl
  simp only [deliver]
  split
  next => exact hcalled
  next => exact hcalled
  next =>
    split
    next => exact hcalled
    next => exact (stock_record _ rfl).trans ((stock_record _ rfl).trans hcalled)
  next => exact (stock_obey _ false _).trans hcalled

theorem stock_putOut (b : Bench) (i : Nat) (fs : List Frame) :
    (b.putOut i fs).1.stock = b.stock := by
  rw [putOut]
  split
  next => rfl
  next => rfl
  next c epoch _ =>
    have h := stock_deliver (b.update i Machine.emit) i c
    split
    next heq =>
      rw [heq] at h
      exact h
    next heq =>
      rw [heq] at h
      split
      · exact h
      · exact h

theorem stock_complain (b : Bench) (i : Nat) : (b.complain i).stock = b.stock := by
  rw [complain]
  split
  · rfl
  · exact stock_log _ _

theorem stock_callRun (b : Bench) (i : Nat) (fs : List Frame) :
    (b.callRun i fs).1.stock = b.stock := by
  simp only [callRun]
  split
  · rfl
  · rfl

theorem stock_callResume (b : Bench) (i : Nat) (fs : List Frame) :
    (b.callResume i fs).1.stock = b.stock := by
  rw [callResume]
  split
  · exact stock_callRun b i fs
  · rfl

theorem stock_endRun (b : Bench) (i : Nat) (fs : List Frame) :
    (b.endRun i fs).1.stock = b.stock := by
  simp only [endRun]
  split
  · rfl
  · exact stock_log _ _

theorem stock_nextStep (b : Bench) (i : Nat) (fs : List Frame) :
    (b.nextStep i fs).1.stock = b.stock := by
  rw [nextStep]
  split
  · rfl
  · exact stock_endRun b i fs

theorem stock_afterStep (b : Bench) (i : Nat) (o : Outcome) (fs : List Frame) :
    (b.afterStep i o fs).1.stock = b.stock := by
  rw [afterStep.eq_def]
  split
  · rfl
  · split
    · rfl
    · rfl
  · exact stock_endRun b i fs

theorem stock_make {made : Bench} {p : Program} {o : Options} (h : b.make p o = .ok made) :
    made.stock = b.stock := by
  obtain ⟨n, hn, -, rfl⟩ := eq_of_make h
  exact stock_log _ _

theorem stock_callStart (b : Bench) (fs : List Frame) : (b.callStart fs).1.stock = b.stock := by
  rw [callStart]
  split
  · rfl
  · split
    · simp only
      split
      · rfl
      · rfl
    · split
      · rfl
      next made hmade =>
        have hmade' : made.stock = b.stock := stock_make hmade
        exact (stock_log _ _).trans hmade'
    · rfl

theorem stock_endStart (b : Bench) (i : Nat) (v : Value) (fs : List Frame) :
    (b.endStart i v fs).1.stock = b.stock := by
  rw [endStart.eq_def]
  simp only
  split
  · rfl
  · rfl

theorem stock_callSessionStep (b : Bench) (fs : List Frame) :
    (b.callSessionStep fs).1.stock = b.stock := by
  rw [callSessionStep]
  split
  · rfl
  · split
    · rfl
    · split
      · rfl
      · rfl
    · split
      · rfl
      next made hmade =>
        have hmade' : made.stock = b.stock := stock_make hmade
        exact hmade'

theorem stock_endSessionStep (b : Bench) (i : Nat) (fs : List Frame) :
    (b.endSessionStep i fs).1.stock = b.stock := by
  rw [endSessionStep]
  split
  · rfl
  · rfl

theorem stock_giveBack (b : Bench) (o : Outcome) (fs : List Frame) :
    (b.giveBack o fs).1.stock = b.stock := by
  rw [giveBack.eq_def]
  split
  · rfl
  · exact stock_afterStep b _ o _
  · exact stock_record b rfl
  · split
    · exact stock_endStart b _ _ _
    · rfl
  · split
    · exact stock_endSessionStep b _ _
    · rfl
  · rfl

/-! ### Turns -/

/-- What a turn does with the texts of a queue. -/
inductive Draws (b : Bench) : Focus → List Frame → Bench → Turn → Prop
  /-- Nothing is asked for, and nothing comes. -/
  | aside {f : Focus} {fs : List Frame} {b' : Bench} {x : Turn} : b'.stock = b.stock →
      f.inHand = [] → x.thread.inHand = [] → readings x.frames = readings fs →
      x.Leaves Focus.Supplied → Draws b f fs b' x
  /-- A step begins to wait. -/
  | asks {f : Focus} {fs : List Frame} {b' : Bench} (i epoch : Nat) :
      b'.stock = {b.stock with requests := b.requests + 1} → f.inHand = [] →
      Draws b f fs b' (.go .resumed (.getting :: .reading i epoch :: fs))
  /-- The first text in the queue is taken. -/
  | takes {fs : List Frame} (text : Text) (texts : List Text) :
      b.source = some (.queue (text :: texts)) → Draws b .resumed (.getting :: fs)
        {b with source := some (.queue texts)} (.go (.answered (.ok text)) fs)
  /-- The step gets the text that was taken for it. -/
  | hears {fs : List Frame} {b' : Bench} (i epoch : Nat) (text : Text) (o : Outcome) :
      b'.stock = {b.stock with texts := b.texts ++ [text]} →
      Draws b (.answered (.ok text)) (.reading i epoch :: fs) b' (.go (.returned o) fs)

theorem Draws.supplied (h : b.Draws f fs b' x) (hs : f.Supplied fs) :
    x.Leaves Focus.Supplied := by
  cases h with
  | aside _ _ _ _ hx => exact hx
  | asks i epoch _ _ =>
    have hreading : Focus.Supplied .resumed (.reading i epoch :: fs) := hs.push nofun nofun
    exact hreading.push nofun nofun
  | takes text texts _ => exact hs.of_subset nofun (List.subset_cons_self _ _)
  | hears i epoch text o _ => exact hs.of_subset nofun (List.subset_cons_self _ _)

/-- No text is lost, doubled or overtaken in a turn, and a step that begins to wait makes the
only request. -/
theorem Draws.conserves (h : b.Draws f fs b' x) {texts : List Text}
    (hq : b.source = some (.queue texts)) : ∃ texts', b'.source = some (.queue texts') ∧
      b'.texts ++ x.thread.inHand ++ texts' = b.texts ++ f.inHand ++ texts ∧
      b'.requests + (b.texts.length + (readings fs).length) =
        b.requests + (b'.texts.length + (readings x.frames).length) := by
  cases h with
  | aside hstock hf hx hr _ =>
    obtain ⟨hsource, hrequests, htexts⟩ := Stock.mk.inj hstock
    exact ⟨texts, hsource.trans hq, by rw [htexts, hf, hx], by rw [hrequests, htexts, hr]⟩
  | asks i epoch hstock hf =>
    obtain ⟨hsource, hrequests, htexts⟩ := Stock.mk.inj hstock
    refine ⟨texts, hsource.trans hq, by rw [htexts, hf]; rfl, ?_⟩
    rw [hrequests, htexts]
    show b.requests + 1 + (b.texts.length + _) = _ + (b.texts.length + ((readings fs).length + 1))
    omega
  | takes text rest hq' =>
    obtain rfl : texts = text :: rest := by simpa using hq.symm.trans hq'
    refine ⟨rest, rfl, ?_, rfl⟩
    show b.texts ++ [text] ++ rest = b.texts ++ [] ++ text :: rest
    simp
  | @hears fs _ i epoch text o hstock =>
    obtain ⟨hsource, hrequests, htexts⟩ := Stock.mk.inj hstock
    refine ⟨texts, hsource.trans hq, ?_, ?_⟩
    · rw [htexts]
      exact congrArg (· ++ _) (List.append_nil _)
    · rw [hrequests, htexts, List.length_append]
      show b.requests + (b.texts.length + ((readings fs).length + 1)) =
        b.requests + (b.texts.length + 1 + (readings fs).length)
      omega

/-- What becomes of a thread in a turn in which no step begins, ends or waits. -/
theorem Yields.aside (h : b.Yields f fs b' x) (hs : f.Supplied fs) (ha : f.Aside fs) :
    f.inHand = [] ∧ x.thread.inHand = [] ∧ readings x.frames = readings fs ∧
      x.Leaves Focus.Supplied := by
  have hrest : ∀ {y : Frame} {rest : List Frame} {f' : Focus}, fs = y :: rest →
      (∀ e, f' ≠ .answered (.error e)) → f'.Supplied rest := by
    rintro y rest f' rfl hf
    exact hs.of_subset hf (List.subset_cons_self _ _)
  have hsame : ∀ {f' : Focus}, (∀ e, f' ≠ .answered (.error e)) → f'.Supplied fs := fun hf =>
    hs.of_subset hf (List.Subset.refl _)
  have hnever : ∀ {i : Nat} {fs : List Frame}, ¬ Focus.Aside (.call (.step i)) fs := by
    intro i fs ha
    cases ha with
    | call c hc => exact hc i rfl
  cases h with
  | steps i _ => exact absurd ha hnever
  | asks i => exact absurd ha hnever
  | awaits i => exact absurd ha hnever
  | joins i s _ => exact ⟨rfl, rfl, rfl, hsame nofun⟩
  | enters i _ _ => exact ⟨rfl, rfl, rfl, hs.push nofun nofun⟩
  | turns _ _ => exact ⟨rfl, rfl, rfl, hsame nofun⟩
  | starts i _ _ => exact ⟨rfl, rfl, rfl, hs.push nofun nofun⟩
  | begins i _ => exact ⟨rfl, rfl, rfl, hs.push nofun nofun⟩
  | done o => exact ⟨rfl, rfl, rfl, trivial⟩
  | next i _ => exact ⟨rfl, rfl, rfl, hsame nofun⟩
  | stops i s hf =>
    refine ⟨?_, rfl, rfl, hrest rfl nofun⟩
    rcases hf with ⟨rfl, -⟩ | ⟨v, rfl, -⟩
    · rfl
    · rfl
  | again i => exact ⟨rfl, rfl, rfl, hsame nofun⟩
  | sleeps i => exact ⟨rfl, rfl, rfl, hsame nofun⟩
  | breaks i e => exact ⟨rfl, rfl, rfl, hrest rfl nofun⟩
  | fails i e hy =>
    refine ⟨rfl, rfl, ?_, hrest rfl nofun⟩
    rcases hy with rfl | rfl
    · rfl
    · rfl
  | settles i v s hy =>
    refine ⟨rfl, rfl, ?_, hrest rfl nofun⟩
    rcases hy with rfl | rfl
    · rfl
    · rfl
  | notes v o => exact ⟨rfl, rfl, rfl, hrest rfl nofun⟩
  | hears | takes | waits | answers | rests | signals | calls => cases ha

theorem stock_advance (ha : f.Aside fs) : (b.advance fs f).1.stock = b.stock := by
  cases ha with
  | call c hc =>
    cases c with
    | step i => exact absurd rfl (hc i)
    | run i => exact stock_callRun b i fs
    | resume i => exact stock_callResume b i fs
    | sessionStart => exact stock_callStart b fs
    | sessionStep => exact stock_callSessionStep b fs
  | returned o => exact stock_giveBack b o fs
  | looping i => exact stock_nextStep b i _

/-- A step ends at once and leaves the stock as it is, or it asks. -/
theorem callStep_cases (b : Bench) (i : Nat) (fs : List Frame) :
    (∃ o, (b.callStep i fs).2 = .go (.returned o) fs ∧ (b.callStep i fs).1.stock = b.stock) ∨
      ∃ (b' : Bench) (epoch : Nat), b.callStep i fs = b'.ask i (.reading i epoch :: fs) ∧
        b'.stock = b.stock := by
  rw [callStep]
  split
  next => exact .inl ⟨_, rfl, rfl⟩
  next => exact .inl ⟨_, rfl, rfl⟩
  next => exact .inl ⟨_, rfl, rfl⟩
  next =>
    obtain ⟨o, ho, -⟩ := turn_putOut b i fs
    exact .inl ⟨o, ho, stock_putOut b i fs⟩
  next =>
    rw [request]
    split
    next => exact .inl ⟨_, rfl, rfl⟩
    next => exact .inr ⟨_, _, rfl, (stock_log _ _).trans (stock_update b i _)⟩
  next => exact .inl ⟨_, rfl, stock_complain b i⟩

/-- A step that hears ends, and the text has come. -/
theorem endReading_ok (b : Bench) (i epoch : Nat) (text : Text) (fs : List Frame) :
    (∃ o, (b.endReading i epoch (.ok text) fs).2 = .go (.returned o) fs) ∧
      (b.endReading i epoch (.ok text) fs).1.stock =
        {b.stock with texts := b.texts ++ [text]} := by
  have hheard : ((b.update i fun m => {m with stepping := false}).record
      (.answered i text)).stock = {b.stock with texts := b.texts ++ [text]} := by
    rw [stock, texts_record]
    rfl
  simp only [endReading]
  split
  · exact ⟨⟨_, rfl⟩, hheard⟩
  · exact ⟨⟨_, rfl⟩, (stock_log _ _).trans hheard⟩

/-- A step that asks waits for the queue. -/
theorem ask_queue {texts : List Text} (hq : b.source = some (.queue texts)) (i : Nat)
    (fs : List Frame) : (b.ask i fs).2 = .go .resumed (.getting :: fs) ∧
      (b.ask i fs).1.stock = {b.stock with requests := b.requests + 1} := by
  have hq' : ({b with requests := b.requests + 1}.record (.asked i)).source =
      some (.queue texts) := hq
  refine ⟨by simp only [ask, hq'], ?_⟩
  simp only [ask, hq']
  exact stock_record _ rfl

/-- Every turn in front of a queue draws on it in one of these ways. -/
theorem advance_draws {texts : List Text} (hf : f.Fits fs) (hs : f.Supplied fs)
    (hq : b.source = some (.queue texts)) :
    b.Draws f fs (b.advance fs f).1 (b.advance fs f).2 := by
  rcases hf.kinds hs with
    ha | ⟨i, rfl⟩ | ⟨i, epoch, text, rest, rfl, rfl⟩ | ⟨rest, rfl, rfl⟩
  · obtain ⟨hhand, hleft, hreadings, hsupplied⟩ := (advance_yields hf b).aside hs ha
    exact .aside (stock_advance ha) hhand hleft hreadings hsupplied
  · show b.Draws _ fs (b.callStep i fs).1 (b.callStep i fs).2
    rcases callStep_cases b i fs with ⟨o, ho, hstock⟩ | ⟨b', epoch, hask, hstock⟩
    · rw [ho]
      exact .aside hstock rfl rfl rfl (hs.of_subset nofun (List.Subset.refl _))
    · obtain ⟨hsource, hrequests, -⟩ := Stock.mk.inj hstock
      obtain ⟨hturn, hasked⟩ := ask_queue (hsource.trans hq) i (.reading i epoch :: fs)
      rw [hask, hturn]
      refine .asks i epoch (hasked.trans ?_) rfl
      rw [hstock, hrequests]
  · obtain ⟨⟨o, ho⟩, hstock⟩ := endReading_ok b i epoch text rest
    show b.Draws _ _ (b.endReading i epoch (.ok text) rest).1 (b.endReading i epoch _ rest).2
    rw [ho]
    exact .hears i epoch text o hstock
  · simp only [advance, goOn, hq]
    cases texts with
    | nil => exact .aside rfl rfl rfl rfl hs
    | cons text texts => exact .takes text texts hq

end Bench
end TapeMachine
