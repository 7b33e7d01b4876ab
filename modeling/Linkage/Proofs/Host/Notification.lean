import Linkage.Proofs.Host.Compile
import Mathlib.Data.List.Induction

/-!
# Linkage.Proofs.Host.Notification

Who is told of which loads.

* `Signal` — what those around a catalog do: observers come and go, modules are loaded.
* `standing` — how many subscriptions an observer has.
* `Host.Told` — an observer is as it is after hearing of these modules.
* `Served` — the invariant: what an observer was told of, in its present life, is every module that
  was loaded meanwhile, once for each subscription that stood at the time.
* `told_of_every_load` — the invariant holds of every observer after any signals.
* `Slots` — subscriptions that outlive their observers until the next load; the same are told.
-/

namespace Linkage

inductive Signal where
  | subscribe (o : Observer)
  | drop (o : Observer)
  | addNative (interface : Interface) (location : Option String)
  | loadImage (image : Bytes) (symbols : Option Bytes)
  deriving DecidableEq

namespace Host

/-! ## Signals -/

/-- Subscribes an observer, which is made if there is none of its name. -/
def enlist (host : Host) : Observer → Host
  | .linker => host.subscribe .linker
  | .registry name => (host.openRegistry name).subscribe (.registry name)
  | .recorder name => (host.openRecorder name).subscribe (.recorder name)

/-- Drops an observer with its subscriptions. A dropped linker makes way for a fresh one. -/
def dismiss (host : Host) : Observer → Host
  | .linker =>
    { host with
      linker := .fresh host.linker.config
      catalog := host.catalog.unsubscribe .linker }
  | .registry name => host.dropRegistry name
  | .recorder name => host.dropRecorder name

def receive (host : Host) : Signal → Host
  | .subscribe o => host.enlist o
  | .drop o => host.dismiss o
  | .addNative interface location => (host.addNative interface location).2
  | .loadImage image symbols => (host.loadImage image symbols).2

def receiveAll (host : Host) (signals : List Signal) : Host := signals.foldl receive host

/-- The module that a signal loads, if it loads one. -/
def loaded? (host : Host) : Signal → Option Handle
  | .subscribe _ => none
  | .drop _ => none
  | .addNative interface location => some (host.addNative interface location).1
  | .loadImage image symbols => (host.loadImage image symbols).1.toOption

/-- The modules that these signals load, in order. -/
def loadedBy (host : Host) : List Signal → List Handle
  | [] => []
  | e :: es => (host.loaded? e).toList ++ (host.receive e).loadedBy es

/--
The observer is what a new one is after hearing of these modules: a recorder has noted them, and a
registry has taken note of them as far as it does.
-/
def Told (host : Host) (told : List Handle) : Observer → Prop
  | .linker => host.registry .linker = told.foldl (fun r h => r.observe host.files h) .empty
  | .registry name =>
    host.registry (.named name) = told.foldl (fun r h => r.observe host.files h) .empty
  | .recorder name => (host.recorders.get? name).getD [] = told

end Host

/-- The number of subscriptions that an observer has made since it was dropped last. -/
def standing (o : Observer) (signals : List Signal) : Nat :=
  signals.foldl (fun n e => if e = .subscribe o then n + 1 else if e = .drop o then 0 else n) 0

namespace Host

variable {host : Host}

theorem receiveAll_concat (host : Host) (signals : List Signal) (e : Signal) :
    host.receiveAll (signals ++ [e]) = (host.receiveAll signals).receive e := by
  simp only [receiveAll, List.foldl_append, List.foldl_cons, List.foldl_nil]

theorem loadedBy_append (host : Host) (first later : List Signal) :
    host.loadedBy (first ++ later) =
      host.loadedBy first ++ (host.receiveAll first).loadedBy later := by
  induction first generalizing host with
  | nil => rfl
  | cons e first ih =>
    simp only [List.cons_append, loadedBy, ih, List.append_assoc]
    rfl

theorem loadedBy_concat (host : Host) (signals : List Signal) (e : Signal) :
    host.loadedBy (signals ++ [e]) =
      host.loadedBy signals ++ ((host.receiveAll signals).loaded? e).toList := by
  rw [loadedBy_append]
  exact congrArg _ (List.append_nil _)

theorem mem_loadedBy {before later : List Signal} {e : Signal} {h : Handle}
    (hh : (host.receiveAll before).loaded? e = some h) :
    h ∈ host.loadedBy (before ++ e :: later) := by
  rw [loadedBy_append, loadedBy, hh]
  exact List.mem_append_right _ (List.mem_append_left _ List.mem_cons_self)

/-- An image that can be read is linked; with any other nothing happens. -/
theorem loadImage_link (host : Host) (image : Bytes) (symbols : Option Bytes) :
    (∃ e, host.loadImage image symbols = (.error e, host)) ∨
      ∃ i s, host.loadImage image symbols =
        (.ok (host.link i s none true).1, (host.link i s none true).2) := by
  unfold loadImage
  split
  · rename_i e _
    exact .inl ⟨e, rfl⟩
  · rename_i i s _
    exact .inr ⟨i, s, rfl⟩

/-- The signal links a module and answers with it. -/
def Links (host : Host) (e : Signal) : Prop :=
  ∃ interface symbols location dynamic,
    host.receive e = (host.link interface symbols location dynamic).2 ∧
      host.loaded? e = some (host.link interface symbols location dynamic).1

/-- The signal is of an image that cannot be loaded, and nothing happens. -/
def Fails (host : Host) (e : Signal) : Prop :=
  ∃ image symbols, e = .loadImage image symbols ∧ host.receive e = host ∧ host.loaded? e = none

/-- All that a signal can do. -/
theorem receive_cases (host : Host) (e : Signal) :
    (∃ o, e = .subscribe o) ∨ (∃ o, e = .drop o) ∨ host.Links e ∨ host.Fails e := by
  cases e with
  | subscribe o => exact .inl ⟨o, rfl⟩
  | drop o => exact .inr (.inl ⟨o, rfl⟩)
  | addNative interface location =>
    exact .inr (.inr (.inl ⟨interface, none, location, false, rfl, rfl⟩))
  | loadImage image symbols =>
    rcases host.loadImage_link image symbols with ⟨e, he⟩ | ⟨i, s, hl⟩
    · refine .inr (.inr (.inr ⟨image, symbols, rfl, ?_, ?_⟩))
      · rw [receive, he]
      · rw [loaded?, he]
        rfl
    · refine .inr (.inr (.inl ⟨i, s, none, true, ?_, ?_⟩))
      · rw [receive, hl]
      · rw [loaded?, hl]
        rfl

theorem link_catalog (host : Host) (interface : Interface) (symbols : Option Symbols)
    (location : Option String) (dynamic : Bool) :
    (host.link interface symbols location dynamic).2.catalog =
      (host.catalog.link interface symbols location dynamic).2 :=
  link_induction (M := fun host' => host'.catalog =
    (host.catalog.link interface symbols location dynamic).2) rfl
    fun host' o h => (host'.tell_catalog _ o).trans h

/-! ## Numbers -/

/-- Modules are numbered in load order, and the next number is beyond all of them. -/
structure Numbered (host : Host) : Prop where
  ascending : host.catalog.modules.Pairwise (·.id < ·.id)
  below : ∀ h ∈ host.catalog.modules, h.id < host.catalog.nextId

theorem Numbered.link (hn : host.Numbered) (interface : Interface) (symbols : Option Symbols)
    (location : Option String) (dynamic : Bool) :
    (host.link interface symbols location dynamic).2.Numbered := by
  constructor
  · rw [link_catalog]
    refine List.pairwise_append.2 ⟨hn.ascending, List.pairwise_singleton _ _, ?_⟩
    intro h hh k hk
    obtain rfl := List.mem_singleton.1 hk
    exact hn.below h hh
  · rw [link_catalog]
    intro h hh
    rcases List.mem_append.1 hh with hh | hh
    · exact Nat.lt_succ_of_lt (hn.below h hh)
    · obtain rfl := List.mem_singleton.1 hh
      exact Nat.lt_succ_self _

/-! ## New and dropped observers -/

/-- An item that is put where there was none, and is what none counts as, makes no difference. -/
theorem getD_put_of_new {α : Type} {store : Store α} {name : String}
    (hnew : ¬ store.contains name = true) (d : α) (name' : String) :
    ((store.put name d).get? name').getD d = (store.get? name').getD d := by
  rw [Store.get?_put]
  split
  · rename_i hname
    subst hname
    have hnone : store.get? name' = none := by simpa [Store.contains] using hnew
    rw [hnone]
    rfl
  · rfl

theorem registry_openRegistry (host : Host) (name : String) (id : RegistryId) :
    (host.openRegistry name).registry id = host.registry id := by
  unfold openRegistry
  split
  · rfl
  · rename_i hnew
    cases id with
    | linker => rfl
    | named name' => exact getD_put_of_new hnew .empty name'

theorem noted_openRecorder (host : Host) (name name' : String) :
    ((host.openRecorder name).recorders.get? name').getD [] =
      (host.recorders.get? name').getD [] := by
  unfold openRecorder
  split
  · rfl
  · rename_i hnew
    exact getD_put_of_new hnew [] name'

theorem files_enlist (host : Host) (o : Observer) : (host.enlist o).files = host.files := by
  cases o with
  | linker => rfl
  | registry name =>
    show (host.openRegistry name).files = host.files
    unfold openRegistry
    split <;> rfl
  | recorder name =>
    show (host.openRecorder name).files = host.files
    unfold openRecorder
    split <;> rfl

theorem catalog_enlist (host : Host) (o : Observer) :
    (host.enlist o).catalog = host.catalog.subscribe o := by
  cases o with
  | linker => rfl
  | registry name =>
    show (host.openRegistry name).catalog.subscribe _ = _
    unfold openRegistry
    split <;> rfl
  | recorder name =>
    show (host.openRecorder name).catalog.subscribe _ = _
    unfold openRecorder
    split <;> rfl

theorem catalog_dismiss (host : Host) (o : Observer) :
    (host.dismiss o).catalog = host.catalog.unsubscribe o := by
  cases o <;> rfl

/-! ## Telling -/

namespace Told

variable {told : List Handle} {o : Observer}

theorem tell (ht : host.Told told o) (h : Handle) (o' : Observer) :
    (host.tell h o').Told (if o' = o then told ++ [h] else told) o := by
  cases o with
  | linker =>
    cases o' with
    | linker =>
      rw [if_pos rfl]
      show (host.registry .linker).observe host.files h = _
      rw [ht, List.foldl_append]
      rfl
    | registry name => exact ht
    | recorder name => exact ht
  | registry name =>
    cases o' with
    | linker => exact ht
    | recorder name' => exact ht
    | registry name' =>
      show ((host.registries.put name' _).get? name).getD .empty = _
      rw [Store.get?_put]
      by_cases hname : name = name'
      · subst hname
        rw [if_pos rfl, if_pos rfl, List.foldl_append]
        exact congrArg (fun r : Registry => r.observe host.files h) ht
      · rw [if_neg hname, if_neg fun he => hname (Observer.registry.inj he).symm]
        exact ht
  | recorder name =>
    cases o' with
    | linker => exact ht
    | registry name' => exact ht
    | recorder name' =>
      show ((host.recorders.put name' _).get? name).getD [] = _
      rw [Store.get?_put]
      by_cases hname : name = name'
      · subst hname
        rw [if_pos rfl, if_pos rfl, ← ht]
        rfl
      · rw [if_neg hname, if_neg fun he => hname (Observer.recorder.inj he).symm]
        exact ht

/-- One call for each subscription. -/
theorem tellAll (ht : host.Told told o) (h : Handle) (os : List Observer) :
    (os.foldl (fun host o => host.tell h o) host).Told
      (told ++ List.replicate (os.count o) h) o := by
  induction os generalizing host told with
  | nil => rwa [List.count_nil, List.replicate_zero, List.append_nil]
  | cons o' os ih =>
    have hrest := ih (ht.tell h o')
    rw [List.foldl_cons, List.count_cons]
    by_cases ho : o' = o
    · rw [if_pos ho, List.append_assoc] at hrest
      rw [if_pos (beq_iff_eq.2 ho), List.replicate_succ]
      exact hrest
    · rw [if_neg ho] at hrest
      rw [if_neg (by simpa using ho), Nat.add_zero]
      exact hrest

theorem link (ht : host.Told told o) (interface : Interface) (symbols : Option Symbols)
    (location : Option String) (dynamic : Bool) :
    (host.link interface symbols location dynamic).2.Told
      (told ++ List.replicate (host.catalog.observers.count o)
        (host.link interface symbols location dynamic).1) o := by
  let linked : Host :=
    { host with catalog := (host.catalog.link interface symbols location dynamic).2 }
  have hstart : linked.Told told o := by
    cases o <;> exact ht
  exact hstart.tellAll _ _

theorem enlist (ht : host.Told told o) (o' : Observer) : (host.enlist o').Told told o := by
  have hregistry (id : RegistryId) : (host.enlist o').registry id = host.registry id := by
    cases o' with
    | linker => rfl
    | registry name => exact host.registry_openRegistry name id
    | recorder name =>
      show (host.openRecorder name).registry id = _
      unfold openRecorder
      split <;> rfl
  cases o with
  | linker => rwa [Told, hregistry, files_enlist]
  | registry name => rwa [Told, hregistry, files_enlist]
  | recorder name =>
    cases o' with
    | linker => exact ht
    | recorder name' => exact (host.noted_openRecorder name' name).trans ht
    | registry name' =>
      show ((host.openRegistry name').recorders.get? name).getD [] = told
      unfold openRegistry
      split <;> exact ht

theorem dismiss (ht : host.Told told o) (o' : Observer) :
    (host.dismiss o').Told (if o' = o then [] else told) o := by
  cases o with
  | linker =>
    cases o' with
    | linker => rfl
    | registry name => exact ht
    | recorder name => exact ht
  | registry name =>
    cases o' with
    | linker => exact ht
    | recorder name' => exact ht
    | registry name' =>
      show ((host.registries.erase name').get? name).getD .empty = _
      rw [Store.get?_erase]
      by_cases hname : name = name'
      · subst hname
        rw [if_pos rfl, if_pos rfl]
        rfl
      · rw [if_neg hname, if_neg fun he => hname (Observer.registry.inj he).symm]
        exact ht
  | recorder name =>
    cases o' with
    | linker => exact ht
    | registry name' => exact ht
    | recorder name' =>
      show ((host.recorders.erase name').get? name).getD [] = _
      rw [Store.get?_erase]
      by_cases hname : name = name'
      · subst hname
        rw [if_pos rfl, if_pos rfl]
        rfl
      · rw [if_neg hname, if_neg fun he => hname (Observer.recorder.inj he).symm]
        exact ht

end Told

/-! ## Subscriptions -/

theorem standing_concat (o : Observer) (signals : List Signal) (e : Signal) :
    standing o (signals ++ [e]) =
      if e = .subscribe o then standing o signals + 1
      else if e = .drop o then 0 else standing o signals := by
  simp only [standing, List.foldl_append, List.foldl_cons, List.foldl_nil]

theorem count_subscribe (c : Catalog) (o o' : Observer) :
    (c.subscribe o').observers.count o = c.observers.count o + if o' = o then 1 else 0 := by
  simp [Catalog.subscribe, List.count_append, List.count_singleton]

theorem count_unsubscribe (c : Catalog) (o o' : Observer) :
    (c.unsubscribe o').observers.count o = if o' = o then 0 else c.observers.count o := by
  unfold Catalog.unsubscribe
  split
  · rename_i ho
    subst ho
    simp [List.count_eq_zero]
  · rename_i ho
    exact List.count_filter (by simpa using Ne.symm ho)

/-! ## Service -/

/-- How the signals add up: the modules, their numbers and the subscriptions. -/
structure Tracked (start : Host) (signals : List Signal) : Prop where
  modules : (start.receiveAll signals).catalog.modules = start.loadedBy signals
  numbered : (start.receiveAll signals).Numbered
  standing : ∀ o, (start.receiveAll signals).catalog.observers.count o = standing o signals

/--
After these signals the observer is what hearing of some modules makes of a new one. These are in
load order, and each module that was loaded on the way is among them once for each subscription
that stood then, or not at all if the observer was dropped since.
-/
structure Served (start : Host) (signals : List Signal) (o : Observer) (told : List Handle) :
    Prop where
  heard : (start.receiveAll signals).Told told o
  ordered : told.Pairwise (·.id ≤ ·.id)
  loaded : ∀ h ∈ told, h ∈ start.loadedBy signals
  counted : ∀ before e later h, signals = before ++ e :: later →
    (start.receiveAll before).loaded? e = some h →
    told.count h = if .drop o ∈ later then 0 else Linkage.standing o before

variable {start : Host} {signals : List Signal} {e : Signal}

namespace Tracked

theorem subscribe (ht : start.Tracked signals) (o : Observer) :
    start.Tracked (signals ++ [.subscribe o]) := by
  have hcatalog := (start.receiveAll signals).catalog_enlist o
  constructor
  · rw [receiveAll_concat, loadedBy_concat, receive, hcatalog]
    exact ht.modules.trans (List.append_nil _).symm
  · rw [receiveAll_concat, receive]
    exact ⟨hcatalog ▸ ht.numbered.ascending, hcatalog ▸ ht.numbered.below⟩
  · intro o'
    rw [receiveAll_concat, receive, hcatalog, count_subscribe, ht.standing, standing_concat]
    simp only [Signal.subscribe.injEq, reduceCtorEq, if_false]
    split <;> rfl

theorem drop (ht : start.Tracked signals) (o : Observer) :
    start.Tracked (signals ++ [.drop o]) := by
  have hcatalog := (start.receiveAll signals).catalog_dismiss o
  constructor
  · rw [receiveAll_concat, loadedBy_concat, receive, hcatalog]
    exact ht.modules.trans (List.append_nil _).symm
  · rw [receiveAll_concat, receive]
    exact ⟨hcatalog ▸ ht.numbered.ascending, hcatalog ▸ ht.numbered.below⟩
  · intro o'
    rw [receiveAll_concat, receive, hcatalog, count_unsubscribe, ht.standing, standing_concat]
    simp only [Signal.drop.injEq, reduceCtorEq, if_false]

theorem link (ht : start.Tracked signals) (hl : (start.receiveAll signals).Links e) :
    start.Tracked (signals ++ [e]) := by
  obtain ⟨interface, symbols, location, dynamic, hreceive, hloaded⟩ := hl
  constructor
  · rw [receiveAll_concat, loadedBy_concat, hreceive, hloaded, link_modules, ht.modules]
    rfl
  · rw [receiveAll_concat, hreceive]
    exact ht.numbered.link interface symbols location dynamic
  · intro o
    rw [receiveAll_concat, hreceive, link_catalog, standing_concat, if_neg, if_neg]
    · exact ht.standing o
    · rintro rfl
      cases hloaded
    · rintro rfl
      cases hloaded

theorem fails (ht : start.Tracked signals) (hf : (start.receiveAll signals).Fails e) :
    start.Tracked (signals ++ [e]) := by
  obtain ⟨image, symbols, rfl, hreceive, hloaded⟩ := hf
  constructor
  · rw [receiveAll_concat, loadedBy_concat, hreceive, hloaded, ht.modules]
    exact (List.append_nil _).symm
  · rw [receiveAll_concat, hreceive]
    exact ht.numbered
  · intro o
    rw [receiveAll_concat, hreceive, standing_concat, if_neg nofun, if_neg nofun]
    exact ht.standing o

theorem concat (ht : start.Tracked signals) (e : Signal) :
    start.Tracked (signals ++ [e]) := by
  rcases (start.receiveAll signals).receive_cases e with ⟨o, rfl⟩ | ⟨o, rfl⟩ | hl | hf
  · exact ht.subscribe o
  · exact ht.drop o
  · exact ht.link hl
  · exact ht.fails hf

end Tracked

namespace Served

variable {o : Observer} {told : List Handle}

/-- One more signal: what it loads counts as the subscriptions that stand, the rest as before. -/
theorem counted_concat (hs : start.Served signals o told) {told' : List Handle}
    (hnew : ∀ h, (start.receiveAll signals).loaded? e = some h →
      told'.count h = Linkage.standing o signals)
    (hold : ∀ h ∈ start.loadedBy signals,
      told'.count h = if e = .drop o then 0 else told.count h) :
    ∀ before e' later h, signals ++ [e] = before ++ e' :: later →
      (start.receiveAll before).loaded? e' = some h →
      told'.count h = if .drop o ∈ later then 0 else Linkage.standing o before := by
  intro before e' later h hsplit hh
  rcases List.eq_nil_or_concat' later with rfl | ⟨later, last, rfl⟩
  · obtain ⟨rfl, hlast⟩ := List.append_inj' hsplit rfl
    obtain rfl := List.singleton_inj.1 hlast
    exact hnew h hh
  · rw [← List.cons_append, ← List.append_assoc] at hsplit
    obtain ⟨rfl, hlast⟩ := List.append_inj' hsplit rfl
    obtain rfl := List.singleton_inj.1 hlast
    rw [hold h (mem_loadedBy hh), hs.counted before e' later h rfl hh]
    by_cases hdrop : e = .drop o
    · simp [hdrop]
    · simp [hdrop, Ne.symm hdrop]

/-- A signal that loads nothing and tells the observer nothing. -/
theorem silent (hs : start.Served signals o told)
    (hheard : ((start.receiveAll signals).receive e).Told told o)
    (hloaded : (start.receiveAll signals).loaded? e = none) (hdrop : ¬ e = .drop o) :
    start.Served (signals ++ [e]) o told := by
  constructor
  case heard =>
    rw [receiveAll_concat]
    exact hheard
  case ordered => exact hs.ordered
  case loaded =>
    intro h hh
    rw [loadedBy_append]
    exact List.mem_append_left _ (hs.loaded h hh)
  case counted =>
    refine hs.counted_concat (fun h hh => ?_) fun h _ => (if_neg hdrop).symm
    rw [hloaded] at hh
    cases hh

theorem dropped (hs : start.Served signals o told) :
    start.Served (signals ++ [.drop o]) o [] := by
  constructor
  case heard =>
    have hheard := hs.heard.dismiss o
    rw [if_pos rfl] at hheard
    rw [receiveAll_concat]
    exact hheard
  case ordered => exact .nil
  case loaded => exact nofun
  case counted =>
    refine hs.counted_concat (fun h hh => ?_) fun h _ => (if_pos rfl).symm
    cases hh

/-- A module that is linked is new, so the observer has not heard of it yet. -/
theorem link (hs : start.Served signals o told) (ht : start.Tracked signals)
    (hl : (start.receiveAll signals).Links e) :
    ∃ told', start.Served (signals ++ [e]) o told' := by
  obtain ⟨interface, symbols, location, dynamic, hreceive, hloaded⟩ := hl
  let new := ((start.receiveAll signals).link interface symbols location dynamic).1
  have hless : ∀ h ∈ start.loadedBy signals, h.id < new.id := by
    rw [← ht.modules]
    exact ht.numbered.below
  have hnot : new ∉ start.loadedBy signals := fun hmem => Nat.lt_irrefl _ (hless new hmem)
  refine ⟨told ++ List.replicate (Linkage.standing o signals) new, ?_⟩
  constructor
  case heard =>
    rw [receiveAll_concat, hreceive, ← ht.standing]
    exact hs.heard.link interface symbols location dynamic
  case ordered =>
    refine List.pairwise_append.2 ⟨hs.ordered, ?_, fun h hh k hk => ?_⟩
    · exact List.pairwise_replicate.2 (.inr (Nat.le_refl _))
    · rw [List.eq_of_mem_replicate hk]
      exact Nat.le_of_lt (hless h (hs.loaded h hh))
  case loaded =>
    intro h hh
    rw [loadedBy_concat, hloaded]
    rcases List.mem_append.1 hh with hh | hh
    · exact List.mem_append_left _ (hs.loaded h hh)
    · rw [List.eq_of_mem_replicate hh]
      exact List.mem_append_right _ List.mem_cons_self
  case counted =>
    refine hs.counted_concat (fun h hh => ?_) fun h hh => ?_
    · obtain rfl : new = h := Option.some_inj.1 (hloaded.symm.trans hh)
      rw [List.count_append, List.count_replicate_self,
        List.count_eq_zero.2 fun hmem => hnot (hs.loaded _ hmem), Nat.zero_add]
    · have hne : new ≠ h := by
        rintro rfl
        exact hnot hh
      rw [List.count_append, List.count_replicate, if_neg (by simpa using hne), Nat.add_zero,
        if_neg]
      rintro rfl
      cases hloaded

theorem concat (hs : start.Served signals o told) (ht : start.Tracked signals) (e : Signal) :
    ∃ told', start.Served (signals ++ [e]) o told' := by
  rcases (start.receiveAll signals).receive_cases e with
    ⟨o', rfl⟩ | ⟨o', rfl⟩ | hl | ⟨image, symbols, rfl, hreceive, hloaded⟩
  · exact ⟨told, hs.silent (hs.heard.enlist o') rfl nofun⟩
  · by_cases ho : o' = o
    · exact ⟨[], ho ▸ hs.dropped⟩
    · have hheard := hs.heard.dismiss o'
      rw [if_neg ho] at hheard
      exact ⟨told, hs.silent hheard rfl fun he => ho (Signal.drop.inj he)⟩
  · exact hs.link ht hl
  · exact ⟨told, hs.silent (by rw [hreceive]; exact hs.heard) hloaded nofun⟩

end Served

/-- A host before anything is loaded, whatever files it has. Its first module gets this number. -/
def blank (config : Config) (files : Files) (first : Nat) : Host :=
  { fresh config with files := files, catalog := { Catalog.empty with nextId := first } }

theorem tracked_blank (config : Config) (files : Files) (first : Nat) (signals : List Signal) :
    (blank config files first).Tracked signals := by
  induction signals using List.reverseRecOn with
  | nil => exact ⟨rfl, ⟨.nil, nofun⟩, fun _ => rfl⟩
  | append_singleton signals e ih => exact ih.concat e

theorem served_blank (config : Config) (files : Files) (first : Nat) (signals : List Signal)
    (o : Observer) : ∃ told, (blank config files first).Served signals o told := by
  induction signals using List.reverseRecOn with
  | nil =>
    refine ⟨[], ?_, .nil, nofun, fun before e later h hsplit => ?_⟩
    · cases o <;> rfl
    · simp at hsplit
  | append_singleton signals e ih =>
    obtain ⟨told, hs⟩ := ih
    exact hs.concat (tracked_blank config files first signals) e

end Host

/-! ## Subscriptions that are not taken back -/

/--
A subscription of the observer that has this name after so many of that name were dropped. It does
not keep its observer, and it is still there when that is gone.
-/
structure Slot where
  observer : Observer
  life : Nat

structure Slots where
  slots : List Slot
  /-- How many observers of each name were dropped. -/
  dropped : Observer → Nat

namespace Slots

def empty : Slots := ⟨[], fun _ => 0⟩

def alive (s : Slots) (x : Slot) : Bool := x.life == s.dropped x.observer

/-- Those who are there to be told, in the order of their subscriptions. -/
def live (s : Slots) : List Observer := (s.slots.filter s.alive).map (·.observer)

/-- What linking a module does before anyone is told. -/
def prune (s : Slots) : Slots := { s with slots := s.slots.filter s.alive }

def after (s : Slots) : Signal → Slots
  | .subscribe o => { s with slots := s.slots ++ [⟨o, s.dropped o⟩] }
  | .drop o => { s with dropped := fun o' => if o' = o then s.dropped o' + 1 else s.dropped o' }
  | .addNative _ _ => s.prune
  | .loadImage image symbols =>
    match Catalog.readImage image symbols with
    | .ok _ => s.prune
    | .error _ => s

def ofSignals (signals : List Signal) : Slots := signals.foldl after empty

/-- No subscription is of an observer to come. -/
def Past (s : Slots) : Prop := ∀ x ∈ s.slots, x.life ≤ s.dropped x.observer

theorem live_prune (s : Slots) : s.prune.live = s.live := by
  show ((s.slots.filter s.alive).filter s.alive).map _ = _
  rw [List.filter_filter]
  simp only [Bool.and_self]
  rfl

theorem Past.after {s : Slots} (hp : s.Past) (e : Signal) : (s.after e).Past := by
  have hprune : s.prune.Past := fun x hx => hp x (List.mem_of_mem_filter hx)
  cases e with
  | subscribe o =>
    intro x hx
    rcases List.mem_append.1 hx with hx | hx
    · exact hp x hx
    · obtain rfl := List.mem_singleton.1 hx
      exact Nat.le_refl _
  | drop o =>
    intro x hx
    have hle := hp x hx
    show x.life ≤ if x.observer = o then s.dropped x.observer + 1 else s.dropped x.observer
    split <;> omega
  | addNative interface location => exact hprune
  | loadImage image symbols =>
    show Past (match Catalog.readImage image symbols with | .ok _ => s.prune | .error _ => s)
    split
    · exact hprune
    · exact hp

theorem live_subscribe (s : Slots) (o : Observer) :
    (s.after (.subscribe o)).live = s.live ++ [o] := by
  show ((s.slots ++ [Slot.mk o (s.dropped o)]).filter s.alive).map Slot.observer = _
  have hnew : s.alive (Slot.mk o (s.dropped o)) = true := beq_self_eq_true _
  rw [List.filter_append, List.map_append, List.filter_cons_of_pos hnew]
  rfl

/-- Those that are left of a dropped observer's subscriptions are of an earlier life. -/
theorem alive_drop {s : Slots} (hp : s.Past) (o : Observer) {x : Slot} (hx : x ∈ s.slots) :
    (s.after (.drop o)).alive x = (decide (x.observer ≠ o) && s.alive x) := by
  have hle := hp x hx
  show (x.life == if x.observer = o then s.dropped x.observer + 1 else s.dropped x.observer) = _
  by_cases ho : x.observer = o
  · rw [if_pos ho, decide_eq_false (not_not_intro ho), Bool.false_and, beq_eq_false_iff_ne]
    omega
  · rw [if_neg ho, decide_eq_true ho, Bool.true_and]
    rfl

theorem live_drop {s : Slots} (hp : s.Past) (o : Observer) :
    (s.after (.drop o)).live = s.live.filter (· ≠ o) := by
  show (s.slots.filter (s.after (.drop o)).alive).map (·.observer) = _
  rw [List.filter_congr fun x hx => alive_drop hp o hx, ← List.filter_filter, live,
    List.filter_map]
  rfl

theorem live_loadImage (s : Slots) (image : Bytes) (symbols : Option Bytes) :
    (s.after (.loadImage image symbols)).live = s.live := by
  show Slots.live (match Catalog.readImage image symbols with
    | .ok _ => s.prune
    | .error _ => s) = _
  split
  · exact s.live_prune
  · rfl

theorem past_ofSignals (signals : List Signal) : (ofSignals signals).Past := by
  induction signals using List.reverseRecOn with
  | nil => exact nofun
  | append_singleton signals e ih =>
    rw [ofSignals, List.foldl_append]
    exact ih.after e

/-- Whenever a module is loaded, those told are those the catalog tells. -/
theorem live_ofSignals (start : Host) (hstart : start.catalog.observers = [])
    (signals : List Signal) :
    (ofSignals signals).live = (start.receiveAll signals).catalog.observers := by
  induction signals using List.reverseRecOn with
  | nil => exact hstart.symm
  | append_singleton signals e ih =>
    rw [ofSignals, List.foldl_append, List.foldl_cons, List.foldl_nil, Host.receiveAll_concat]
    change ((ofSignals signals).after e).live = _
    cases e with
    | subscribe o =>
      rw [live_subscribe, ih, Host.receive, Host.catalog_enlist]
      rfl
    | drop o =>
      rw [live_drop (past_ofSignals signals), ih, Host.receive, Host.catalog_dismiss]
      rfl
    | addNative interface location =>
      refine (live_prune _).trans (ih.trans ?_)
      rw [Host.receive, Host.addNative, Host.link_catalog]
      rfl
    | loadImage image symbols =>
      rw [live_loadImage, ih, Host.receive]
      rcases Host.loadImage_link _ image symbols with ⟨e, he⟩ | ⟨i, s, hl⟩
      · rw [he]
      · rw [hl, Host.link_catalog]
        rfl

end Slots

/--
Whatever comes and goes, every observer is what hearing of the right modules makes of a new one:
those that were loaded since it was made, in load order, each once for every subscription that
stood then. The modules of the catalog are those loaded, their numbers ascend, and an image that
cannot be loaded changes nothing for anyone. Whether an observer's subscriptions end with it or are
only found to be dead by the next load makes no difference to who is told.
-/
theorem told_of_every_load (config : Config) (files : Files) (first : Nat)
    (signals : List Signal) :
    let start := Host.blank config files first
    let host := start.receiveAll signals
    (∀ o, ∃ told,
      host.Told told o ∧
      told.Pairwise (·.id ≤ ·.id) ∧
      (∀ h ∈ told, h ∈ start.loadedBy signals) ∧
      ∀ before e later h, signals = before ++ e :: later →
        (start.receiveAll before).loaded? e = some h →
        told.count h = if .drop o ∈ later then 0 else standing o before) ∧
    host.catalog.modules = start.loadedBy signals ∧
    host.catalog.modules.Pairwise (·.id < ·.id) ∧
    (∀ image symbols error, (host.loadImage image symbols).1 = .error error →
      (host.loadImage image symbols).2 = host) ∧
    (Slots.ofSignals signals).live = host.catalog.observers := by
  intro start host
  have htracked := Host.tracked_blank config files first signals
  refine ⟨fun o => ?_, htracked.modules, htracked.numbered.ascending,
    fun image symbols error herror => ?_, Slots.live_ofSignals start rfl signals⟩
  · obtain ⟨told, hs⟩ := Host.served_blank config files first signals o
    exact ⟨told, hs.heard, hs.ordered, hs.loaded, hs.counted⟩
  · rcases host.loadImage_link image symbols with ⟨e, he⟩ | ⟨i, s, hl⟩
    · rw [he]
    · rw [hl] at herror
      cases herror

/-- A second subscription counts from the next module on, and an empty image is none. -/
example :
    let module (name : String) : Signal := .addNative { (default : Interface) with name } none
    let host := (Host.blank .default .empty 1).receiveAll
      [module "Core", .subscribe (.recorder "R"), module "Util", .subscribe (.recorder "R"),
        .loadImage [] none, module "App"]
    (host.recorders.get? "R").map (·.map (·.interface.name)) = some ["Util", "App", "App"] := by
  decide +kernel

end Linkage
