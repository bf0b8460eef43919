import TapeMachine.Proofs.Schedule.Queue

/-! Conservation of input.

Whatever is called and fed, and in whatever order, no text that is fed to a queue is lost,
doubled or overtaken by another one: those that came for steps, the one that is in the hand
of the running thread, and those still in the queue are together the texts that were fed,
in their order (`Scheduler.Supplied`). A request is open as long as its text has not come,
and only a step that waits has one open. -/
namespace TapeMachine

/-- In a turn without a reset a single machine gets the texts that come for its steps. -/
theorem Stir.input {frail : Prop} {m m' : Machine} {sg sg' : List Sign}
    (h : Stir frail [m] sg' [m'])
    (hm : m.epoch = 0 → m.input.toList = (sg.filterMap Sign.text?).flatten) (he : m'.epoch = 0) :
    m'.input.toList = ((sg ++ sg').filterMap Sign.text?).flatten := by
  rw [List.filterMap_append, List.flatten_append]
  rcases h.of_single with ⟨k, rfl, rfl⟩ | ⟨a, m₁, k, hd, -, rfl, rfl⟩
  · rw [Machine.epoch_wiped] at he
    obtain rfl : k = 0 := by omega
    rw [← hm (by omega)]
    exact (List.append_nil _).symm
  · rw [Machine.epoch_wiped, hd.kept.epoch] at he
    obtain rfl : k = 0 := by omega
    rw [List.replicate_zero, List.append_nil, ← hm (by omega)]
    exact hd.input (by omega) 0

/-- No more steps wait than there are machines. -/
theorem Held.length_le {ms : List Machine} {rs : List (Nat × Nat)} (h : Held ms rs) :
    rs.length ≤ ms.length := by
  have hsub : rs.map Prod.fst ⊆ List.range ms.length := by
    intro i hi
    obtain ⟨m, hm, -⟩ := (h.waiting i).mpr hi
    exact List.mem_range.mpr (List.getElem?_eq_some_iff.mp hm).1
  simpa using (List.subperm_of_subset h.nodup hsub).length_le

/-- A machine that is alone waits just if any step does. -/
theorem Held.waiting_iff_of_single {m : Machine} {rs : List (Nat × Nat)} (h : Held [m] rs) :
    m.stepping = true ↔ 0 < rs.length := by
  have hget : [m][0]? = some m := rfl
  rw [← Waiting.iff_of hget, h.waiting, List.length_pos_iff_exists_mem]
  constructor
  · intro hi
    obtain ⟨x, hx, -⟩ := List.mem_map.mp hi
    exact ⟨x, hx⟩
  · rintro ⟨x, hx⟩
    have hi := List.mem_map_of_mem (f := Prod.fst) hx
    obtain ⟨n, hn, -⟩ := (h.waiting x.1).mpr hi
    have hzero : x.1 = 0 := by simpa using (List.getElem?_eq_some_iff.mp hn).1
    rwa [hzero] at hi

/-! ### Threads -/

/-- The thread waits for a text in the queue. -/
def Thread.waits : Thread → Bool
  | .active .resumed (.getting :: _) => true
  | _ => false

/-- Where no source is at work on a reply, no call stands on a step that waits. -/
theorem Suspended.readings_eq_nil {fs : List Frame} (h : Suspended fs)
    (hs : ∀ deeds answer, .replying deeds answer ∉ fs) : readings fs = [] := by
  induction h with
  | nil => rfl
  | looping i _ ih => exact ih fun deeds answer hm => hs deeds answer (List.mem_cons_of_mem _ hm)
  | starting i _ ih => exact ih fun deeds answer hm => hs deeds answer (List.mem_cons_of_mem _ hm)
  | stepping i _ ih => exact ih fun deeds answer hm => hs deeds answer (List.mem_cons_of_mem _ hm)
  | calling v deeds answer i epoch _ ih =>
    exact absurd (List.mem_cons_of_mem _ (List.mem_cons_self ..)) (hs deeds answer)

/-- A step that waits has its text in hand or waits for the queue. -/
theorem Focus.Fits.length_readings {f : Focus} {fs : List Frame} (h : f.Fits fs)
    (hs : f.Supplied fs) :
    (readings fs).length = f.inHand.length + (Thread.active f fs).waits.toNat := by
  have htail : ∀ {x : Frame} {rest : List Frame}, fs = x :: rest →
      ∀ deeds answer, .replying deeds answer ∉ rest := by
    rintro x rest rfl deeds answer hm
    exact hs.frames deeds answer (List.mem_cons_of_mem _ hm)
  cases h with
  | call c h => rw [h.readings_eq_nil hs.frames]; rfl
  | returned o h => rw [h.readings_eq_nil hs.frames]; rfl
  | @looping rest i h =>
    have hnil : readings rest = [] := h.readings_eq_nil (htail rfl)
    show (readings rest).length = 0
    rw [hnil]
    rfl
  | @answered rest a i epoch h =>
    have hnil : readings rest = [] := h.readings_eq_nil (htail rfl)
    show (readings rest).length + 1 = _
    cases a with
    | ok text =>
      rw [hnil]
      rfl
    | error e => exact absurd rfl (hs.answer e)
  | @getting rest i epoch h =>
    have hnil : readings rest = [] := h.readings_eq_nil fun deeds answer hm =>
      htail rfl deeds answer (List.mem_cons_of_mem _ hm)
    show (readings rest).length + 1 = _
    rw [hnil]
    rfl
  | replying deeds answer i epoch _ => exact absurd (List.mem_cons_self ..) (hs.frames _ _)

namespace Roster
variable {r : Roster} {t : Nat} {f : Focus} {fs : List Frame}

/-- The text that is on its way from the queue to a step. -/
def inHand (r : Roster) : List Text := r.gather Thread.inHand

theorem inHand_of_threads {r' : Roster} (ht : r'.threads = r.threads) : r'.inHand = r.inHand := by
  rw [inHand, inHand, gather, gather, ht]

theorem inHand_spawn (r : Roster) (c : Call) : (r.spawn c).inHand = r.inHand := by
  simp [spawn, inHand, gather, Thread.inHand, Focus.inHand]

/-- A thread waits for a text in the queue. -/
def Waits (r : Roster) : Prop := ∃ (t : Nat) (x : Thread), r.threads[t]? = some x ∧ x.waits = true

theorem Rests.inHand (h : Rests f fs) : f.inHand = [] := by
  rcases h with rfl | ⟨c, rfl, -⟩
  · rfl
  · rfl

theorem Rested.gather_inHand {l : List Thread}
    (h : ∀ x ∈ l, ∀ f fs, x = .active f fs → Rests f fs) : l.flatMap Thread.inHand = [] := by
  refine List.flatMap_eq_nil_iff.mpr fun x hx => ?_
  cases x with
  | active f fs => exact (h _ hx f fs rfl).inHand
  | finished o => rfl

/-- Only the running thread has a text in hand. -/
theorem Rested.gatherOthers_inHand (h : r.Rested) (hr : r.running = some t) :
    r.gatherOthers Thread.inHand t = [] := by
  refine Rested.gather_inHand fun x hx f fs heq => ?_
  obtain ⟨u, hut, hu⟩ := List.mem_eraseIdx_iff_getElem?.mp hx
  rw [Array.getElem?_toList] at hu
  refine h u f fs (heq ▸ hu) fun hrun => hut ?_
  exact Option.some.inj (hrun.symm.trans hr)

theorem Rested.inHand_of_running (h : r.Rested) (hr : r.running = none) : r.inHand = [] := by
  refine Rested.gather_inHand fun x hx f fs heq => ?_
  obtain ⟨u, hu⟩ := List.mem_iff_getElem?.mp hx
  rw [Array.getElem?_toList] at hu
  exact h u f fs (heq ▸ hu) (by rw [hr]; exact nofun)

theorem eq_of_perm_inHand {l : List Text} {x : Thread} (h : l.Perm (x.inHand ++ [])) :
    l = x.inHand := by
  rw [List.append_nil] at h
  cases x with
  | finished o => exact h.eq_nil
  | active f fs =>
    rcases f with c | o | ⟨e | text⟩ | _
    · exact h.eq_nil
    · exact h.eq_nil
    · exact h.eq_nil
    · exact List.perm_singleton.mp h
    · exact h.eq_nil

theorem Rested.inHand_eq (h : r.Rested) (hc : r.current? = some (t, f, fs)) :
    r.inHand = f.inHand := by
  obtain ⟨hr, ht⟩ := current?_eq_some_iff.mp hc
  have hperm := gather_perm (g := Thread.inHand) ht
  rw [h.gatherOthers_inHand hr] at hperm
  exact eq_of_perm_inHand (x := .active f fs) hperm

theorem Rested.inHand_settle (h : r.Rested) (hc : r.current? = some (t, f, fs)) (x : Turn) :
    (r.settle t x).inHand = x.thread.inHand := by
  obtain ⟨hr, ht⟩ := current?_eq_some_iff.mp hc
  have hperm := gather_put_perm (g := Thread.inHand) ht x.thread
  rw [h.gatherOthers_inHand hr] at hperm
  rw [inHand, gather, threads_settle]
  exact eq_of_perm_inHand hperm

theorem length_readings_settle (hc : r.current? = some (t, f, fs)) (x : Turn) :
    (r.settle t x).readings.length + (TapeMachine.readings fs).length =
      r.readings.length + (TapeMachine.readings x.frames).length := by
  obtain ⟨-, ht⟩ := current?_eq_some_iff.mp hc
  have hbefore := (readings_perm ht).length_eq
  have hafter := (readings_put_perm ht x.thread).length_eq
  rw [← readings_of_threads (r.threads_settle t x), Turn.readings_thread] at hafter
  rw [List.length_append] at hbefore hafter
  rw [show Thread.readings (.active f fs) = TapeMachine.readings fs from rfl] at hbefore
  omega

/-- Every step that waits has its text in hand or waits for the queue. -/
theorem length_readings (hf : r.Fits) (hs : r.All Focus.Supplied) :
    r.readings.length = r.inHand.length + r.threads.toList.countP Thread.waits := by
  have hall : ∀ x ∈ r.threads.toList,
      x.readings.length = x.inHand.length + x.waits.toNat := by
    intro x hx
    obtain ⟨t, ht⟩ := List.mem_iff_getElem?.mp hx
    rw [Array.getElem?_toList] at ht
    cases x with
    | active f fs => exact (hf t f fs ht).length_readings (hs t f fs ht)
    | finished o => rfl
  rw [readings, inHand, gather]
  generalize r.threads.toList = l at hall
  induction l with
  | nil => rfl
  | cons x rest ih =>
    obtain ⟨hx, hrest⟩ := List.forall_mem_cons.mp hall
    simp only [List.flatMap_cons, List.length_append, List.countP_cons, hx, ih hrest]
    cases x.waits <;> simp <;> omega

theorem waits_iff : r.Waits ↔ 0 < r.threads.toList.countP Thread.waits := by
  rw [List.countP_pos_iff]
  constructor
  · rintro ⟨t, x, ht, hx⟩
    exact ⟨x, List.mem_of_getElem? (by rwa [Array.getElem?_toList]), hx⟩
  · rintro ⟨x, hx, hwaits⟩
    obtain ⟨t, ht⟩ := List.mem_iff_getElem?.mp hx
    exact ⟨t, x, by rwa [← Array.getElem?_toList], hwaits⟩

end Roster

/-! ### Moves -/

namespace Scheduler
variable {s s' : Scheduler} {all : List Text}

/-- The text that a move feeds to the queue. -/
def gets (s : Scheduler) : Move → List Text
  | .outside (.feed text) => if s.roster.running.isNone then [text] else []
  | _ => []

/-- The texts that are fed in a run, in order. -/
def fed : Scheduler → List Move → List Text
  | _, [] => []
  | s, x :: rest => s.gets x ++ (s.move x).fed rest

/-- Nothing is fed while a thread is running. -/
theorem gets_of_running (hr : ¬ s.roster.running.isNone = true) (x : Intervention) :
    s.gets (.outside x) = [] := by
  cases x with
  | feed text => exact if_neg hr
  | _ => rfl

/-- What came for steps, what is in hand and what is in the queue are the texts that were
fed, and a request is open for every step that waits. -/
structure Supplied (all : List Text) (s : Scheduler) : Prop where
  threads : s.roster.All Focus.Supplied
  queue : ∃ texts, s.bench.source = some (.queue texts) ∧
    s.bench.texts ++ s.roster.inHand ++ texts = all
  requests : s.bench.requests = s.bench.texts.length + s.roster.readings.length

theorem Supplied.of_stock (h : s.Supplied all) (hb : s'.bench.stock = s.bench.stock)
    (ht : s'.roster.All Focus.Supplied) (hi : s'.roster.inHand = s.roster.inHand)
    (hr : s'.roster.readings.length = s.roster.readings.length) : s'.Supplied all := by
  obtain ⟨hsource, hrequests, htexts⟩ := Stock.mk.inj hb
  refine ⟨ht, ?_, ?_⟩
  · rw [hsource, htexts, hi]
    exact h.queue
  · rw [hrequests, htexts, hr]
    exact h.requests

theorem Supplied.of_threads (h : s.Supplied all) (hb : s'.bench.stock = s.bench.stock)
    (ht : s'.roster.threads = s.roster.threads) : s'.Supplied all := by
  exact h.of_stock hb (h.threads.of_threads ht) (Roster.inHand_of_threads ht)
    (by rw [Roster.readings_of_threads ht])

theorem Supplied.advance (h : s.Supplied all) (hs : s.Sound) (ho : s.roster.Orderly) :
    s.advance.Supplied all := by
  cases hc : s.roster.current? with
  | none => rwa [advance_of_none ho hc]
  | some c =>
    obtain ⟨t, f, fs⟩ := c
    obtain ⟨-, ht⟩ := Roster.current?_eq_some_iff.mp hc
    obtain ⟨texts, hq, hall⟩ := h.queue
    have hrequests := h.requests
    have hturn := Bench.advance_draws (hs.fits t f fs ht) (h.threads t f fs ht) hq
    obtain ⟨texts', hq', htexts, hopen⟩ := hturn.conserves hq
    have hlength := Roster.length_readings_settle hc (s.bench.advance fs f).2
    rw [advance_of_some hc]
    refine ⟨h.threads.settle t (hturn.supplied (h.threads t f fs ht)), ⟨texts', hq', ?_⟩, ?_⟩
    · rw [← hall, ho.rested.inHand_eq hc, ho.rested.inHand_settle hc]
      exact htexts
    · show (s.bench.advance fs f).1.requests =
        (s.bench.advance fs f).1.texts.length + (s.roster.settle t _).readings.length
      omega

/-- Only a feed touches the queue from outside. -/
theorem stock_intervene {x : Intervention} (hx : ∀ text, x ≠ .feed text) :
    (s.intervene x).bench.stock = s.bench.stock := by
  cases x with
  | feed text => exact absurd rfl (hx text)
  | signal g => exact Bench.stock_signal s.bench g
  | signalMachine i g =>
    rw [intervene]
    split
    · exact Bench.stock_signalMachine s.bench i g
    · rfl
  | spawn | cooperate | edit => rfl

theorem Supplied.intervene (h : s.Supplied all) (x : Intervention)
    (hr : s.roster.running.isNone = true) :
    (s.intervene x).Supplied (all ++ s.gets (.outside x)) := by
  have hnone : ∀ l : List Text, l = [] → (s.intervene x).Supplied all →
      (s.intervene x).Supplied (all ++ l) := by
    rintro l rfl hx
    rwa [List.append_nil]
  cases x with
  | feed text =>
    obtain ⟨texts, hq, hall⟩ := h.queue
    have hthreads := s.roster.threads_wakeGetter
    refine ⟨h.threads.of_threads hthreads, ⟨texts ++ [text], ?_, ?_⟩, ?_⟩
    · show s.bench.source.map _ = _
      rw [hq]
      rfl
    · rw [gets, if_pos hr, ← hall]
      show s.bench.texts ++ s.roster.wakeGetter.inHand ++ (texts ++ [text]) = _
      rw [Roster.inHand_of_threads hthreads, List.append_assoc _ texts]
    · show s.bench.requests = s.bench.texts.length + s.roster.wakeGetter.readings.length
      rw [Roster.readings_of_threads hthreads]
      exact h.requests
  | spawn c =>
    exact hnone _ rfl (h.of_stock rfl (h.threads.spawn (Focus.supplied_call c))
      (s.roster.inHand_spawn c) (congrArg List.length (s.roster.readings_spawn c)))
  | signal | signalMachine | cooperate | edit =>
    exact hnone _ rfl (h.of_threads (stock_intervene fun _ h => by cases h)
      (threads_intervene fun _ h => by cases h))

/-- Every move keeps the texts together, and only a feed adds to them. -/
theorem Supplied.move (h : s.Supplied all) (hs : s.Sound) (ho : s.roster.Orderly) (x : Move) :
    (s.move x).Supplied (all ++ s.gets x) := by
  cases x with
  | turn =>
    rw [show all ++ s.gets .turn = all from List.append_nil all]
    exact h.advance hs ho
  | dispatch =>
    rw [show all ++ s.gets .dispatch = all from List.append_nil all]
    exact h.of_threads rfl s.roster.threads_dispatch
  | outside x =>
    rw [Scheduler.move]
    split
    next hr => exact h.intervene x hr
    next hr => rwa [gets_of_running hr x, List.append_nil]

/-- A move that is no turn puts texts into the queue, and takes none out. -/
theorem source_move {texts : List Text} {x : Move} (hx : x ≠ .turn)
    (hq : s.bench.source = some (.queue texts)) :
    (s.move x).bench.source = some (.queue (texts ++ s.gets x)) := by
  have hsame : ∀ b : Bench, b.stock = s.bench.stock → ∀ l : List Text, l = [] →
      b.source = some (.queue (texts ++ l)) := by
    rintro b hb l rfl
    rw [List.append_nil, ← hq]
    exact congrArg Stock.source hb
  cases x with
  | turn => exact absurd rfl hx
  | dispatch => exact hsame _ rfl _ rfl
  | outside x =>
    rw [move]
    split
    next hr =>
      cases x with
      | feed text =>
        rw [gets, if_pos hr]
        show s.bench.source.map _ = _
        rw [hq]
        rfl
      | _ => exact hsame _ (stock_intervene fun _ h => by cases h) _ rfl
    next hr => exact hsame _ rfl _ (gets_of_running hr x)

/-- A text that leaves the queue is in the hand of a thread whose step has waited for it. -/
theorem Supplied.takes {x : Move} {text : Text} {texts : List Text} (h : s.Supplied all)
    (hs : s.Sound) (hq : s.bench.source = some (.queue (text :: texts)))
    (hq' : (s.move x).bench.source = some (.queue texts)) :
    (s.move x).bench = {s.bench with source := some (.queue texts)} ∧ ∃ t i epoch fs,
      s.roster.threads[t]? = some (.active .resumed (.getting :: .reading i epoch :: fs)) ∧
      (s.move x).roster.current? = some (t, .answered (.ok text), .reading i epoch :: fs) := by
  have hkept : ∀ b : Bench, b.source = s.bench.source → b.source ≠ some (.queue texts) := by
    intro b hb heq
    rw [hb, hq] at heq
    exact List.cons_ne_self _ _ (Source.queue.inj (Option.some.inj heq))
  by_cases hx : x = .turn
  · subst hx
    rw [Scheduler.move] at hq' ⊢
    cases hc : s.roster.current? with
    | none => exact absurd hq' (hkept _ (by rw [Scheduler.advance.eq_def]; simp only [hc]))
    | some c =>
      obtain ⟨t, f, fs⟩ := c
      obtain ⟨-, ht⟩ := Roster.current?_eq_some_iff.mp hc
      have hfits := hs.fits t f fs ht
      have hturn := Bench.advance_draws hfits (h.threads t f fs ht) hq
      rw [advance_of_some hc] at hq' ⊢
      generalize (s.bench.advance fs f).1 = b', (s.bench.advance fs f).2 = y at *
      cases hturn with
      | aside hstock _ _ _ _ => exact absurd hq' (hkept b' (congrArg Stock.source hstock))
      | asks i epoch hstock _ => exact absurd hq' (hkept b' (congrArg Stock.source hstock))
      | hears i epoch text o hstock =>
        exact absurd hq' (hkept b' (congrArg Stock.source hstock))
      | takes text' texts' hq₀ =>
        obtain ⟨rfl, rfl⟩ : text' = text ∧ texts' = texts := by simpa using hq₀.symm.trans hq
        cases hfits with
        | getting i epoch _ =>
          exact ⟨rfl, t, i, epoch, _, ht, Roster.current?_settle_go hc _ _⟩
  · rw [source_move hx hq] at hq'
    have hlength := congrArg List.length (Source.queue.inj (Option.some.inj hq'))
    simp at hlength
    omega

/-! ### Runs -/

theorem orderly_play (h : s.roster.Orderly) (moves : List Move) :
    (s.play moves).roster.Orderly :=
  play_keeps (A := fun _ => True) (I := fun s => s.roster.Orderly)
    (fun _ x _ h => orderly_move h x) h fun _ _ => trivial

theorem Supplied.play (h : s.Supplied all) (hs : s.Sound) (ho : s.roster.Orderly)
    (moves : List Move) : (s.play moves).Supplied (all ++ s.fed moves) := by
  induction moves generalizing s all with
  | nil => rwa [fed, List.append_nil]
  | cons x rest ih =>
    have hrest := ih (h.move hs ho x) (move_moved hs x).sound (orderly_move ho x)
    rwa [List.append_assoc] at hrest

variable {p : Program} {o : Options} {source : Option Source} {sink : Option Sink} {b : Bench}
  {m : Machine}

/-- A machine that was not reset has got the texts that came for its steps. -/
theorem play_input (hb : Bench.make {source := source, sink := sink} p o = .ok b)
    (moves : List Move) (hm : (({bench := b} : Scheduler).play moves).bench.machine? 0 = some m)
    (he : m.epoch = 0) :
    m.input.toList = (({bench := b} : Scheduler).play moves).bench.texts.flatten := by
  obtain ⟨m₀, hnew, -, hbare, hsigns, hsession⟩ := exists_of_make hb
  have hstart : m₀.epoch = 0 → m₀.input.toList = (b.signs.filterMap Sign.text?).flatten := by
    intro _
    obtain ⟨p, n, hn, hears, speaks, rfl⟩ := hnew
    rw [hsigns]
    rfl
  obtain ⟨n, hn, hinput⟩ := play_single_induction
    (P := fun n sg => n.epoch = 0 → n.input.toList = (sg.filterMap Sign.text?).flatten)
    (Starts.machine hb).sound hsession hbare hstart
    (fun n sg n' sg' h hstir he' => hstir.input h he') moves
  have hbm := Bench.getElem?_bare_of hm
  rw [hn] at hbm
  cases hbm
  exact hinput he

/-- At most one step waits, and if so the machine waits. -/
theorem play_open (hb : Bench.make {source := source, sink := sink} p o = .ok b)
    (moves : List Move) (hm : (({bench := b} : Scheduler).play moves).bench.machine? 0 = some m) :
    (({bench := b} : Scheduler).play moves).roster.readings.length ≤ 1 ∧
      (m.stepping = true ↔
        0 < (({bench := b} : Scheduler).play moves).roster.readings.length) := by
  obtain ⟨m₀, -, -, hbare, -, hsession⟩ := exists_of_make hb
  obtain ⟨hsound, hkeeps⟩ := play_sound (Starts.machine hb).sound moves
  have hsize : (({bench := b} : Scheduler).play moves).bench.bare.length = 1 := by
    rw [Bench.length_bare, (hkeeps.alone hsession).2]
    show b.machines.size = 1
    rw [← Bench.length_bare, hbare]
    rfl
  refine ⟨hsize ▸ hsound.held.length_le, ?_⟩
  have hheld := hsound.held
  obtain ⟨n, hn⟩ := List.length_eq_one_iff.mp hsize
  have hbm := Bench.getElem?_bare_of hm
  rw [hn] at hheld hbm
  cases hbm
  exact hheld.waiting_iff_of_single

theorem supplied_of_make {texts : List Text}
    (hb : Bench.make {source := some (.queue texts), sink := sink} p o = .ok b) :
    ({bench := b} : Scheduler).Supplied texts := by
  obtain ⟨m, -, -, -, hsigns, -⟩ := exists_of_make hb
  have htexts : b.texts = [] := by rw [Bench.texts, hsigns]; rfl
  obtain ⟨n, hn, -, rfl⟩ := Bench.eq_of_make hb
  refine ⟨fun t f fs ht => ?_, ⟨texts, rfl, ?_⟩, ?_⟩
  · simp at ht
  · rw [htexts]
    rfl
  · rw [htexts]
    rfl

/-- Input out of a queue is neither lost nor doubled, and comes in the order in which it was
fed. Whatever is called, in whatever order, a machine that was not reset has the texts that
came for its steps as its input, and together with the text in the hand of the running thread
and those in the queue they are all that was fed. The source was called once for every text
that was taken, and once more just while a step waits for one. -/
theorem play_conserves {texts : List Text}
    (hb : Bench.make {source := some (.queue texts), sink := sink} p o = .ok b)
    (moves : List Move) (hm : (({bench := b} : Scheduler).play moves).bench.machine? 0 = some m)
    (he : m.epoch = 0) :
    let s := ({bench := b} : Scheduler).play moves
    ∃ taken queue, s.bench.source = some (.queue queue) ∧
      taken ++ queue = texts ++ ({bench := b} : Scheduler).fed moves ∧
      m.input.toList ++ s.roster.inHand.flatten = taken.flatten ∧
      (s.roster.Waits → s.bench.requests = taken.length + 1) ∧
      (¬ s.roster.Waits → s.bench.requests = taken.length) ∧
      (s.roster.running = none →
        m.input.toList ++ queue.flatten = (texts ++ ({bench := b} : Scheduler).fed moves).flatten ∧
          (s.roster.Waits ↔ m.stepping = true)) := by
  intro s
  have hstarts := Starts.machine hb
  have horderly : s.roster.Orderly := orderly_play Roster.orderly_empty moves
  have hsupplied : s.Supplied _ :=
    (supplied_of_make hb).play hstarts.sound Roster.orderly_empty moves
  obtain ⟨queue, hq, hall⟩ := hsupplied.queue
  have hrequests := hsupplied.requests
  have hlength : s.roster.readings.length = _ :=
    Roster.length_readings (play_sound hstarts.sound moves).1.fits hsupplied.threads
  obtain ⟨hone, hstepping⟩ : s.roster.readings.length ≤ 1 ∧
      (m.stepping = true ↔ 0 < s.roster.readings.length) := play_open hb moves hm
  have hinput : m.input.toList = s.bench.texts.flatten := play_input hb moves hm he
  refine ⟨s.bench.texts ++ s.roster.inHand, queue, hq, hall, ?_, fun hw => ?_, fun hw => ?_,
    fun hr => ?_⟩
  · rw [hinput, List.flatten_append]
  · have hpos := Roster.waits_iff.mp hw
    rw [List.length_append]
    omega
  · have hzero := Nat.eq_zero_of_not_pos fun hpos => hw (Roster.waits_iff.mpr hpos)
    rw [List.length_append]
    omega
  · have hhand := horderly.rested.inHand_of_running hr
    rw [hhand, List.append_nil] at hall
    refine ⟨?_, Roster.waits_iff.trans ?_⟩
    · rw [← hall, List.flatten_append, hinput]
    · rw [hstepping, hlength, hhand, List.length_nil, Nat.zero_add]

/-- Three texts, one of them empty, are fed in a burst while a run waits for the first one and
after a step was refused, and the run waits for a fourth one in the end. -/
theorem play_conserves_burst : ∃ b m, Bench.make {source := some (.queue [])}
      ⟨#[',', ',', ',', ',', ',']⟩ {memorySize := .integer 1, cooperative := false} = .ok b ∧
    let s := ({bench := b} : Scheduler).play (Move.alone (.run 0) 5 ++ Move.alone (.step 0) 2 ++
      [.outside (.feed ['a', 'b']), .outside (.feed []), .outside (.feed ['c']), .dispatch] ++
      List.replicate 20 .turn)
    s.bench.machine? 0 = some m ∧ m.epoch = 0 ∧ s.roster.running = none ∧
      s.bench.source = some (.queue []) ∧ m.input.toList = ['a', 'b', 'c'] ∧
      m.stepping = true ∧ s.bench.requests = 4 := by
  have hb : Bench.make {source := some (.queue [])} ⟨#[',', ',', ',', ',', ',']⟩
      {memorySize := .integer 1, cooperative := false} = .ok _ := rfl
  obtain ⟨taken, queue, hq, hfed, -, hwaits, -, hrest⟩ := play_conserves hb
    (Move.alone (.run 0) 5 ++ Move.alone (.step 0) 2 ++
      [.outside (.feed ['a', 'b']), .outside (.feed []), .outside (.feed ['c']), .dispatch] ++
      List.replicate 20 .turn) rfl rfl
  obtain rfl : queue = [] := (Source.queue.inj (Option.some.inj hq)).symm
  obtain ⟨hinput, hiff⟩ := hrest rfl
  rw [List.append_nil] at hfed
  refine ⟨_, _, hb, rfl, rfl, rfl, rfl, ?_, rfl, ?_⟩
  · rw [List.flatten_nil, List.append_nil] at hinput
    exact hinput
  · rw [hwaits (hiff.mpr rfl), hfed]
    rfl

end Scheduler
end TapeMachine
