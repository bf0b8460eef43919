import TapeMachine.Proofs.Schedule.Conservation
import TapeMachine.Proofs.Schedule.Reading
import TapeMachine.Proofs.Text.Ended

/-! Streams.

A stream has the lines of a text, and each request gets the next one. A line may be read as
soon as it is asked for, or by a worker that takes its time and then hands it on as if it were
fed to a queue (`Source.Streams`); either way the texts that come are the first lines, in
order, and after them empty texts (`Scheduler.Serves`). So a machine that is not reset has so
many whole lines as its input, each shown with its end or without. -/
namespace TapeMachine

/-! ### Lines -/

namespace Source

/-- A line as it is handed on, with its end or without. -/
def shown (keepEnd : Bool) (line : Text) : Text := if keepEnd then line else withoutEnd line

/-- A stream over a text in a run that feeds these texts to queues: the lines are read when they
are asked for, or fed one after the other by a worker. -/
inductive Streams (keepEnd : Bool) (text : Text) (fed : List Text) : Source → Prop
  | lines : Streams keepEnd text fed (.lines text keepEnd)
  | worker : fed = (List.range fed.length).map (line keepEnd text) →
      Streams keepEnd text fed (.queue [])

variable {keepEnd : Bool} {rest : Text}

theorem shown_nil (keepEnd : Bool) : shown keepEnd [] = [] := by cases keepEnd <;> rfl

theorem line_zero (keepEnd : Bool) (rest : Text) :
    line keepEnd rest 0 = shown keepEnd (splitLine rest).1 := rfl

/-- A request gets the line of its number, and the empty text behind the last one. -/
theorem line_eq (keepEnd : Bool) (text : Text) (n : Nat) :
    line keepEnd text n = shown keepEnd (text.endedLines.getD n []) := by
  induction n generalizing text with
  | zero =>
    by_cases htext : text = []
    · subst htext
      rfl
    · rw [line_zero, Text.endedLines_eq htext]
      rfl
  | succ n ih =>
    by_cases htext : text = []
    · subst htext
      rw [line, ih]
      rfl
    · rw [line, ih, Text.endedLines_eq htext]
      rfl

theorem flatten_map_line (keepEnd : Bool) (text : Text) (n : Nat) :
    ((List.range n).map (line keepEnd text)).flatten =
      ((text.endedLines.take n).map (shown keepEnd)).flatten := by
  induction n with
  | zero => rfl
  | succ n ih =>
    rw [List.range_succ, List.map_append, List.flatten_append, ih, List.take_add_one,
      List.map_append, List.flatten_append, List.map_singleton, List.flatten_singleton, line_eq,
      List.getD_eq_getElem?_getD]
    cases text.endedLines[n]? with
    | none => rw [Option.getD_none, shown_nil]; rfl
    | some line => rw [Option.getD_some]; simp

end Source

/-- An act of a machine is answered for it. -/
theorem Machine.Act.eq_of_answered {a : Act} {m : Machine} {i j : Nat} {text : Text}
    (h : Sign.answered j text ∈ a.signs i m) : j = i := by
  cases a with
  | ask => cases List.mem_singleton.mp h
  | hear text' =>
    cases List.mem_singleton.mp h
    rfl
  | drop late =>
    obtain ⟨t, -, ht⟩ := Option.map_eq_some_iff.mp (Option.mem_toList.mp h)
    cases ht
    rfl
  | work =>
    obtain ⟨c, -, hc⟩ := Option.map_eq_some_iff.mp (Option.mem_toList.mp h)
    cases hc
  | put | spill =>
    rw [signs] at h
    split at h
    · cases List.mem_singleton.mp h
    · cases h

/-- A text that comes where there is one machine comes for it. -/
theorem Stir.text?_eq_heard? {frail : Prop} {m m' : Machine} {sg : List Sign} {g : Sign}
    (h : Stir frail [m] sg [m']) (hg : g ∈ sg) : g.text? = g.heard? 0 := by
  cases g with
  | answered j text =>
    have hj : j = 0 := by
      rcases h.of_single with ⟨k, rfl, -⟩ | ⟨a, m₁, k, -, -, rfl, -⟩
      · cases List.eq_of_mem_replicate hg
      · rcases List.mem_append.mp hg with hg | hg
        · exact Machine.Act.eq_of_answered hg
        · cases List.eq_of_mem_replicate hg
    subst hj
    rfl
  | _ => rfl

namespace Bench

variable {b b' : Bench} {f : Focus} {fs : List Frame} {x : Turn} {i : Nat} {keepEnd : Bool}
  {rest : Text} {all : Nat → Text}

/-! ### Turns -/

/-- What a turn does with the lines of a stream. -/
inductive Pours (b : Bench) : Focus → List Frame → Bench → Turn → Prop
  /-- Nothing is asked for, and nothing comes. -/
  | aside {f : Focus} {fs : List Frame} {b' : Bench} {x : Turn} : b'.stock = b.stock →
      f.inHand = [] → x.thread.inHand = [] → readings x.frames = readings fs →
      x.Leaves Focus.Supplied → Pours b f fs b' x
  /-- A step begins to wait, and the next line is read for it. -/
  | reads {f : Focus} {fs : List Frame} {b' : Bench} (i epoch : Nat) (rest : Text)
      (keepEnd : Bool) : b.source = some (.lines rest keepEnd) →
      b'.stock = ⟨some (.lines (Source.splitLine rest).2 keepEnd), b.requests + 1, b.texts⟩ →
      f.inHand = [] → Pours b f fs b'
        (.go (.answered (.ok (Source.line keepEnd rest 0))) (.reading i epoch :: fs))
  /-- The step gets the line that was read for it. -/
  | hears {fs : List Frame} {b' : Bench} (i epoch : Nat) (text : Text) (o : Outcome) :
      b'.stock = {b.stock with texts := b.texts ++ [text]} →
      Pours b (.answered (.ok text)) (.reading i epoch :: fs) b' (.go (.returned o) fs)

theorem Pours.supplied (h : b.Pours f fs b' x) (hs : f.Supplied fs) :
    x.Leaves Focus.Supplied := by
  cases h with
  | aside _ _ _ _ hx => exact hx
  | reads i epoch rest keepEnd _ _ _ => exact hs.push nofun nofun
  | hears i epoch text o _ => exact hs.of_subset nofun (List.subset_cons_self _ _)

/-- The texts that came, with the one in hand, are the lines that were asked for, and the stream
goes on with the next one. -/
structure Poured (keepEnd : Bool) (all : Nat → Text) (hand : List Text) (b : Bench) : Prop where
  source : ∃ rest, b.source = some (.lines rest keepEnd) ∧
    ∀ n, all (b.requests + n) = Source.line keepEnd rest n
  texts : b.texts ++ hand = (List.range b.requests).map all

theorem Poured.of_stock {hand : List Text} (h : b.Poured keepEnd all hand)
    (hb : b'.stock = b.stock) : b'.Poured keepEnd all hand := by
  obtain ⟨hsource, hrequests, htexts⟩ := Stock.mk.inj hb
  refine ⟨?_, ?_⟩
  · rw [hsource, hrequests]
    exact h.source
  · rw [htexts, hrequests]
    exact h.texts

/-- No line is skipped or read twice in a turn, and a step that begins to wait makes the only
request. -/
theorem Pours.poured (h : b.Pours f fs b' x) (hp : b.Poured keepEnd all f.inHand) :
    b'.Poured keepEnd all x.thread.inHand ∧
      b'.requests + (b.texts.length + (readings fs).length) =
        b.requests + (b'.texts.length + (readings x.frames).length) := by
  cases h with
  | aside hstock hf hx hr _ =>
    obtain ⟨-, hrequests, htexts⟩ := Stock.mk.inj hstock
    rw [hf] at hp
    rw [hx, hr, hrequests, htexts]
    exact ⟨hp.of_stock hstock, rfl⟩
  | reads i epoch rest keepEnd' hq hstock hf =>
    obtain ⟨hsource, hrequests, htexts⟩ := Stock.mk.inj hstock
    obtain ⟨rest', hq', hall⟩ := hp.source
    obtain ⟨rfl, rfl⟩ : rest = rest' ∧ keepEnd' = keepEnd := by simpa using hq.symm.trans hq'
    have hcame := hp.texts
    rw [hf, List.append_nil] at hcame
    refine ⟨⟨⟨_, hsource, fun n => ?_⟩, ?_⟩, ?_⟩
    · rw [hrequests, Nat.add_assoc, Nat.add_comm 1 n]
      exact hall (n + 1)
    · rw [htexts, hrequests, List.range_succ, List.map_append, ← hcame, List.map_singleton]
      exact congrArg (fun t => b.texts ++ [t]) (hall 0).symm
    · rw [hrequests, htexts]
      show b.requests + 1 + (b.texts.length + _) = _ + (b.texts.length + ((readings fs).length + 1))
      omega
  | @hears fs _ i epoch text o hstock =>
    obtain ⟨hsource, hrequests, htexts⟩ := Stock.mk.inj hstock
    refine ⟨⟨?_, ?_⟩, ?_⟩
    · rw [hsource, hrequests]
      exact hp.source
    · rw [htexts, hrequests]
      exact (List.append_nil _).trans hp.texts
    · rw [hrequests, htexts, List.length_append]
      show b.requests + (b.texts.length + ((readings fs).length + 1)) =
        b.requests + (b.texts.length + 1 + (readings fs).length)
      omega

/-- A step that asks gets the next line at once. -/
theorem ask_lines (hq : b.source = some (.lines rest keepEnd)) (i : Nat) (fs : List Frame) :
    (b.ask i fs).2 = .go (.answered (.ok (Source.line keepEnd rest 0))) fs ∧
      (b.ask i fs).1.stock =
        ⟨some (.lines (Source.splitLine rest).2 keepEnd), b.requests + 1, b.texts⟩ := by
  have hasked : ({b with requests := b.requests + 1}.record (.asked i)).stock =
      ⟨some (.lines rest keepEnd), b.requests + 1, b.texts⟩ := by
    rw [stock_record _ rfl, ← hq]
    rfl
  have hq' : ({b with requests := b.requests + 1}.record (.asked i)).source =
      some (.lines rest keepEnd) := hq
  cases rest with
  | nil =>
    simp only [ask, hq', stock_log, hasked]
    refine ⟨?_, rfl⟩
    rw [Source.line_zero]
    exact congrArg (fun t => Turn.go (.answered (.ok t)) fs) (Source.shown_nil keepEnd).symm
  | cons c rest =>
    simp only [ask, hq']
    refine ⟨rfl, ?_⟩
    exact congrArg (fun k : Stock => Stock.mk (some (.lines _ keepEnd)) k.requests k.texts) hasked

/-- Every turn in front of a stream is of one of these kinds. -/
theorem advance_pours (hf : f.Fits fs) (hs : f.Supplied fs)
    (hq : b.source = some (.lines rest keepEnd)) :
    b.Pours f fs (b.advance fs f).1 (b.advance fs f).2 := by
  rcases hf.kinds hs with
    ha | ⟨i, rfl⟩ | ⟨i, epoch, text, rest', rfl, rfl⟩ | ⟨rest', rfl, rfl⟩
  · obtain ⟨hhand, hleft, hreadings, hsupplied⟩ := (advance_yields hf b).aside hs ha
    exact .aside (stock_advance ha) hhand hleft hreadings hsupplied
  · show b.Pours _ fs (b.callStep i fs).1 (b.callStep i fs).2
    rcases callStep_cases b i fs with ⟨o, ho, hstock⟩ | ⟨b', epoch, hask, hstock⟩
    · rw [ho]
      exact .aside hstock rfl rfl rfl (hs.of_subset nofun (List.Subset.refl _))
    · obtain ⟨hsource, hrequests, htexts⟩ := Stock.mk.inj hstock
      obtain ⟨hturn, hasked⟩ := ask_lines (hsource.trans hq) i (.reading i epoch :: fs)
      rw [hask, hturn]
      refine .reads i epoch rest keepEnd hq (hasked.trans ?_) rfl
      rw [hrequests, htexts]
  · obtain ⟨⟨o, ho⟩, hstock⟩ := endReading_ok b i epoch text rest'
    show b.Pours _ _ (b.endReading i epoch (.ok text) rest').1 (b.endReading i epoch _ rest').2
    rw [ho]
    exact .hears i epoch text o hstock
  · simp only [advance, goOn, hq]
    exact .aside rfl rfl rfl rfl hs

end Bench

namespace Scheduler

variable {s s₀ : Scheduler} {moves : List Move} {keepEnd : Bool} {all : Nat → Text} {t : Nat}

/-! ### Moves -/

/-- The threads know of no failure, the texts that came are the first ones, and a request is open
for every step that waits. -/
structure Serves (all : Nat → Text) (s : Scheduler) : Prop where
  threads : s.roster.All Focus.Supplied
  texts : s.bench.texts = (List.range s.bench.texts.length).map all
  requests : s.bench.requests = s.bench.texts.length + s.roster.readings.length

/-- The lines of a stream are in the machine, in hand or still to come. -/
structure Poured (keepEnd : Bool) (all : Nat → Text) (s : Scheduler) : Prop where
  threads : s.roster.All Focus.Supplied
  bench : s.bench.Poured keepEnd all s.roster.inHand
  requests : s.bench.requests = s.bench.texts.length + s.roster.readings.length

theorem Poured.advance (h : s.Poured keepEnd all) (hs : s.Sound) (ho : s.roster.Orderly) :
    s.advance.Poured keepEnd all := by
  cases hc : s.roster.current? with
  | none => rwa [advance_of_none ho hc]
  | some c =>
    obtain ⟨t, f, fs⟩ := c
    obtain ⟨-, ht⟩ := Roster.current?_eq_some_iff.mp hc
    obtain ⟨rest, hq, -⟩ := h.bench.source
    have hrequests := h.requests
    have hbench := h.bench
    rw [ho.rested.inHand_eq hc] at hbench
    have hturn := Bench.advance_pours (hs.fits t f fs ht) (h.threads t f fs ht) hq
    obtain ⟨hpoured, hopen⟩ := hturn.poured hbench
    have hlength := Roster.length_readings_settle hc (s.bench.advance fs f).2
    rw [advance_of_some hc]
    refine ⟨h.threads.settle t (hturn.supplied (h.threads t f fs ht)), ?_, ?_⟩
    · show (s.bench.advance fs f).1.Poured keepEnd all (s.roster.settle t _).inHand
      rw [ho.rested.inHand_settle hc]
      exact hpoured
    · show (s.bench.advance fs f).1.requests =
        (s.bench.advance fs f).1.texts.length + (s.roster.settle t _).readings.length
      omega

theorem Poured.of_threads {s' : Scheduler} (h : s.Poured keepEnd all)
    (hb : s'.bench.stock = s.bench.stock) (ht : s'.roster.threads = s.roster.threads) :
    s'.Poured keepEnd all := by
  obtain ⟨-, hrequests, htexts⟩ := Stock.mk.inj hb
  refine ⟨h.threads.of_threads ht, ?_, ?_⟩
  · rw [Roster.inHand_of_threads ht]
    exact h.bench.of_stock hb
  · rw [hrequests, htexts, Roster.readings_of_threads ht]
    exact h.requests

/-- A stream is fed nothing. -/
theorem Poured.stock_intervene (h : s.Poured keepEnd all) (x : Intervention) :
    (s.intervene x).bench.stock = s.bench.stock := by
  by_cases hx : ∃ text, x = .feed text
  · obtain ⟨text, rfl⟩ := hx
    obtain ⟨rest, hq, -⟩ := h.bench.source
    show Stock.mk (s.bench.source.map _) _ _ = Stock.mk s.bench.source _ _
    rw [hq]
    rfl
  · exact Scheduler.stock_intervene fun text h => hx ⟨text, h⟩

theorem Poured.intervene (h : s.Poured keepEnd all) (x : Intervention) :
    (s.intervene x).Poured keepEnd all := by
  have hstock := h.stock_intervene x
  cases x with
  | spawn c =>
    have hhand : (s.intervene (.spawn c)).roster.inHand = s.roster.inHand :=
      s.roster.inHand_spawn c
    have hreadings : (s.intervene (.spawn c)).roster.readings = s.roster.readings :=
      s.roster.readings_spawn c
    refine ⟨h.threads.spawn (Focus.supplied_call c), ?_, ?_⟩
    · rw [hhand]
      exact h.bench.of_stock hstock
    · rw [hreadings]
      exact h.requests
  | _ => exact h.of_threads hstock (threads_intervene fun _ h => by cases h)

theorem Poured.move (h : s.Poured keepEnd all) (hs : s.Sound) (ho : s.roster.Orderly)
    (x : Move) : (s.move x).Poured keepEnd all := by
  cases x with
  | turn => exact h.advance hs ho
  | dispatch => exact h.of_threads rfl s.roster.threads_dispatch
  | outside x =>
    rw [Scheduler.move]
    split
    · exact h.intervene x
    · exact h

theorem Poured.play (h : s.Poured keepEnd all) (hs : s.Sound) (ho : s.roster.Orderly)
    (moves : List Move) : (s.play moves).Poured keepEnd all := by
  induction moves generalizing s with
  | nil => exact h
  | cons x rest ih => exact ih (h.move hs ho x) (move_moved hs x).sound (orderly_move ho x)

/-! ### What comes -/

theorem texts_eq_map_range {ts hand : List Text} {n : Nat}
    (h : ts ++ hand = (List.range n).map all) : ts = (List.range ts.length).map all := by
  have hle : ts.length ≤ n := by
    have hlength := congrArg List.length h
    rw [List.length_append, List.length_map, List.length_range] at hlength
    omega
  have htake := congrArg (List.take ts.length) h
  rwa [List.take_left, ← List.map_take, List.take_range, Nat.min_eq_left hle] at htake

theorem Poured.serves (h : s.Poured keepEnd all) : s.Serves all :=
  ⟨h.threads, texts_eq_map_range h.bench.texts, h.requests⟩

/-- So it is with a queue that is fed the first lines. -/
theorem Supplied.serves {fed : List Text} (h : s.Supplied fed)
    (hfed : fed = (List.range fed.length).map all) : s.Serves all := by
  obtain ⟨queue, -, hall⟩ := h.queue
  rw [List.append_assoc] at hall
  exact ⟨h.threads, texts_eq_map_range (hall.trans hfed), h.requests⟩

theorem Serves.not_sourceFails (h : s.Serves all) (i : Nat) : ¬ s.SourceFails i := by
  rw [SourceFails]
  split
  next t e j epoch rest hc =>
    exact absurd rfl ((h.threads t _ _ (Roster.current?_eq_some_iff.mp hc).2).answer e)
  next => exact id

/-! ### Runs -/

open Machine

variable {source : Source} {sink : Option Sink} {p : Program} {o : Options} {b : Bench}
  {text : Text} {m : Machine} {i : Nat}

theorem fed_append (s : Scheduler) (a b : List Move) :
    s.fed (a ++ b) = s.fed a ++ (s.play a).fed b := by
  induction a generalizing s with
  | nil => rfl
  | cons x rest ih =>
    rw [List.cons_append, fed, fed, ih (s.move x), List.append_assoc]
    rfl

theorem poured_of_make
    (hb : Bench.make {source := some (.lines text keepEnd), sink := sink} p o = .ok b) :
    ({bench := b} : Scheduler).Poured keepEnd (Source.line keepEnd text) := by
  obtain ⟨m, -, -, -, hsigns, -⟩ := exists_of_make hb
  have htexts : b.texts = [] := by rw [Bench.texts, hsigns]; rfl
  obtain ⟨n, hn, -, rfl⟩ := Bench.eq_of_make hb
  refine ⟨fun t f fs ht => ?_, ⟨⟨text, rfl, fun n => ?_⟩, ?_⟩, ?_⟩
  · simp at ht
  · exact congrArg (Source.line keepEnd text) (Nat.zero_add n)
  · rw [htexts]
    rfl
  · rw [htexts]
    rfl

/-- A stream serves a run with its lines at any time. -/
theorem serves_of_streams (hb : Bench.make {source := some source, sink := sink} p o = .ok b)
    (hstream : source.Streams keepEnd text (({bench := b} : Scheduler).fed moves)) :
    (({bench := b} : Scheduler).play moves).Serves (Source.line keepEnd text) := by
  have hsound := (Starts.machine hb).sound
  cases hstream with
  | lines => exact ((poured_of_make hb).play hsound Roster.orderly_empty moves).serves
  | worker hfed =>
    exact ((supplied_of_make hb).play hsound Roster.orderly_empty moves).serves hfed

/-- A part of a run is fed the first lines. -/
theorem streams_of_append {a more : List Move}
    (h : source.Streams keepEnd text (s.fed (a ++ more))) :
    source.Streams keepEnd text (s.fed a) := by
  cases h with
  | lines => exact .lines
  | worker hfed =>
    rw [fed_append] at hfed
    exact .worker (texts_eq_map_range hfed)

theorem not_sourceFails_of_streams
    (hb : Bench.make {source := some source, sink := sink} p o = .ok b)
    (hstream : source.Streams keepEnd text (({bench := b} : Scheduler).fed moves)) :
    ({bench := b} : Scheduler).Along (fun s _ => ¬ s.SourceFails i) moves := by
  induction moves using List.reverseRecOn with
  | nil => exact trivial
  | append_singleton moves x ih =>
    have hbefore := streams_of_append hstream
    exact (along_append _ _ _ _).mpr
      ⟨ih hbefore, (serves_of_streams hb hbefore).not_sourceFails i, trivial⟩

/-- Where there is one machine, all texts come for it. -/
theorem texts_eq_heard (hb : Bench.make {source := some source, sink := sink} p o = .ok b)
    (moves : List Move) : (({bench := b} : Scheduler).play moves).bench.texts =
      (({bench := b} : Scheduler).play moves).heard 0 := by
  obtain ⟨m, -, -, hbare, hsigns, hsession⟩ := exists_of_make hb
  have hstep : ∀ (n : Machine) (sg : List Sign) (n' : Machine) (sg' : List Sign),
      sg.filterMap Sign.text? = sg.filterMap (Sign.heard? 0) →
      Stir ({bench := b} : Scheduler).bench.Frail [n] sg' [n'] →
      (sg ++ sg').filterMap Sign.text? = (sg ++ sg').filterMap (Sign.heard? 0) := by
    intro n sg n' sg' h hstir
    rw [List.filterMap_append, List.filterMap_append, h]
    exact congrArg (_ ++ ·) (List.filterMap_congr fun g hg => hstir.text?_eq_heard? hg)
  have hnone : b.signs.filterMap Sign.text? = b.signs.filterMap (Sign.heard? 0) := by
    rw [hsigns]
    rfl
  obtain ⟨n, -, htexts⟩ :=
    play_single_induction (Starts.machine hb).sound hsession hbare hnone hstep moves
  exact htexts

/-- A step that waits stands at a `,` that finds the input used up. -/
theorem exhausted_of_stepping (hs : s₀.Starts) (hm : (s₀.play moves).bench.machine? i = some m)
    (he : m.epoch = 0) (hst : m.stepping = true) : m.Exhausted := by
  have hheld := (play_sound hs.sound moves).1.held
  have hbare := Bench.getElem?_bare_of hm
  have hwaits := (hheld.waiting i).mp ((Waiting.iff_of hbare).mpr hst)
  obtain ⟨⟨j, epoch⟩, hmem, rfl⟩ := List.mem_map.mp hwaits
  obtain ⟨n, hn, hle, hasks⟩ := hheld.awaits j epoch hmem
  obtain rfl := Option.some.inj (hn.symm.trans hbare)
  have hzero : m.bare.epoch = 0 := he
  exact (exhausted_iff (play_tidy hs hm).cursor_le).mpr (hasks (by omega))

/-- Every call of the source that is not answered yet is one that a step waits for. -/
theorem asked_eq (hs : s₀.Starts) (ha : s₀.Along Addresses moves)
    (hf : s₀.Along (fun s _ => ¬ s.SourceFails i) moves)
    (hm : (s₀.play moves).bench.machine? i = some m) (he : m.epoch = 0) :
    (s₀.play moves).asked i = ((s₀.play moves).heard i).length + m.stepping.toNat := by
  refine (play_deals (P := fun texts calls _ m => calls = texts.length + m.stepping.toNat)
    (fun m hnew => ?_) (fun {texts calls cs m m' ts k} h hd _ => ?_) hs ha hf).2 m hm he
  · obtain ⟨p, n, hn, hears, speaks, heq⟩ := hnew
    have hstepping : m.stepping = false := congrArg (·.stepping) heq
    rw [hstepping]
    rfl
  · show calls + k = (texts ++ ts).length + m'.stepping.toNat
    have h : calls = texts.length + m.stepping.toNat := h
    rw [List.length_append, h]
    cases hd with
    | aside _ _ _ hs => rw [hs]; rfl
    | asks _ _ _ _ hs hs' => rw [hs, hs']; rfl
    | hears text _ _ _ _ hs hs' => rw [hs, hs']; rfl
    | reads _ _ _ _ hs => rw [hs]; rfl

theorem length_readings_of_make
    (hb : Bench.make {source := some source, sink := sink} p o = .ok b) (moves : List Move)
    (hm : (({bench := b} : Scheduler).play moves).bench.machine? 0 = some m) :
    (({bench := b} : Scheduler).play moves).roster.readings.length = m.stepping.toNat := by
  obtain ⟨hone, hstepping⟩ := play_open hb moves hm
  cases hst : m.stepping with
  | true =>
    have hpos := hstepping.mp hst
    exact Nat.le_antisymm hone hpos
  | false =>
    refine Nat.eq_zero_of_not_pos fun hpos => ?_
    rw [hstepping.mpr hpos] at hst
    cases hst

/-- The texts that a stream has returned are the first lines. -/
theorem answers_of_streams (hb : Bench.make {source := some source, sink := sink} p o = .ok b)
    (hstream : source.Streams keepEnd text (({bench := b} : Scheduler).fed moves))
    (ha : ({bench := b} : Scheduler).Along Addresses moves) :
    ({bench := b} : Scheduler).answers 0 moves =
      (List.range (({bench := b} : Scheduler).answers 0 moves).length).map
        (Source.line keepEnd text) := by
  rw [← heard_eq_answers (.machine hb) ha 0, ← texts_eq_heard hb moves]
  exact (serves_of_streams hb hstream).texts

/-- In front of a stream a machine that is not reset gets one line after the other: its `k`-th
request the `k`-th line, with its end or without, and every request behind the last line the
empty text. The requests are those of the `,` that find the input used up, the one that still
waits among them. So with line ends the input is a first part of the text in whole lines, and
all of it as soon as every line was asked for. -/
theorem play_stream (hb : Bench.make {source := some source, sink := sink} p o = .ok b)
    (hstream : source.Streams keepEnd text (({bench := b} : Scheduler).fed moves))
    (ha : ({bench := b} : Scheduler).Along Addresses moves)
    (hm : (({bench := b} : Scheduler).play moves).bench.machine? 0 = some m) (he : m.epoch = 0) :
    let answers := ({bench := b} : Scheduler).answers 0 moves
    let requests := (({bench := b} : Scheduler).play moves).bench.requests
    (∀ k < answers.length,
      answers[k]? = some (Source.shown keepEnd (text.endedLines.getD k []))) ∧
    requests = answers.length + m.stepping.toNat ∧
    requests = ((({bench := b} : Scheduler).commas 0 moves).filter
      fun q => q.1.Exhausted).length + m.stepping.toNat ∧
    (m.stepping = true → m.Exhausted) ∧ ({bench := b} : Scheduler).Along (AsksDuly 0) moves ∧
    m.input.toList =
      ((text.endedLines.take answers.length).map (Source.shown keepEnd)).flatten ∧
    (keepEnd = true → m.input.toList <+: text ∧
      (text.endedLines.length ≤ answers.length → m.input.toList = text)) := by
  intro answers requests
  have hstarts := Starts.machine hb
  have hfails := not_sourceFails_of_streams (i := 0) hb hstream
  have hanswers : answers = (List.range answers.length).map (Source.line keepEnd text) :=
    answers_of_streams hb hstream ha
  have hledger := (play_ledger hstarts ha hfails).2 m hm he
  rw [heard_eq_answers hstarts ha 0] at hledger
  have hrequests : requests = answers.length + m.stepping.toNat := by
    have hserved := (serves_of_streams hb hstream).requests
    rwa [texts_eq_heard hb moves, heard_eq_answers hstarts ha 0,
      length_readings_of_make hb moves hm] at hserved
  have hcalls : answers.length = ((({bench := b} : Scheduler).commas 0 moves).filter
      fun q => q.1.Exhausted).length := by
    have hasked := asked_eq hstarts ha hfails hm he
    rw [heard_eq_answers hstarts ha 0, hledger.calls] at hasked
    exact (Nat.add_right_cancel hasked).symm
  have hinput : m.input.toList =
      ((text.endedLines.take answers.length).map (Source.shown keepEnd)).flatten := by
    rw [hledger.input, ← Source.flatten_map_line, ← hanswers]
  refine ⟨fun k hk => ?_, hrequests, ?_, exhausted_of_stepping hstarts hm he,
    play_asksDuly hstarts ha, hinput, fun hkeep => ?_⟩
  · rw [hanswers, List.getElem?_map, List.getElem?_range hk, ← Source.line_eq]
    rfl
  · rw [hrequests, hcalls]
  · subst hkeep
    have hwhole : (text.endedLines.take answers.length).map (Source.shown true) =
        text.endedLines.take answers.length := List.map_id _
    rw [hwhole] at hinput
    rw [hinput]
    constructor
    · obtain ⟨others, hothers⟩ := List.take_prefix answers.length text.endedLines
      refine ⟨others.flatten, ?_⟩
      rw [← List.flatten_append, hothers, Text.flatten_endedLines]
    · intro hall
      rw [List.take_of_length_le hall, Text.flatten_endedLines]

/-- Four `,` in front of a line with a carriage return, an empty one and one without an end: the
second finds no character, and the fourth finds the end of the stream. -/
theorem play_stream_blank : ∃ b s m,
    Bench.make {source := some (.lines ['a', '\r', '\n', '\n', 'b'] false)} ⟨#[',', ',', ',', ',']⟩
      {memorySize := .integer 1, cooperative := false} = .ok b ∧ s = ({bench := b} : Scheduler) ∧
    (s.play (Move.alone (.run 0) 20)).bench.machine? 0 = some m ∧ m.counter = 4 ∧
    s.answers 0 (Move.alone (.run 0) 20) = [['a'], [], ['b'], []] ∧
    (s.play (Move.alone (.run 0) 20)).bench.requests = 4 ∧ m.input.toList = ['a', 'b'] := by
  obtain ⟨b, hb⟩ : ∃ b, Bench.make {source := some (.lines ['a', '\r', '\n', '\n', 'b'] false)}
      ⟨#[',', ',', ',', ',']⟩ {memorySize := .integer 1, cooperative := false} = .ok b := ⟨_, rfl⟩
  cases id hb
  have hstream := play_stream hb .lines
    (show Along Addresses _ (Move.alone (.run 0) 20) by decide) rfl rfl
  exact ⟨_, _, _, hb, rfl, rfl, rfl, rfl, hstream.2.1, hstream.2.2.2.2.2.1⟩

end Scheduler

end TapeMachine
