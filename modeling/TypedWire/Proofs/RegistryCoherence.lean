import TypedWire.Proofs.RegistryCalls

/-! What a registry promises over whole histories of calls follows from what one call does to the registry
that the call before it left. -/

namespace TypedWire

namespace Registry

/-- No call tells the registries apart: in between, instances may have been made and lines logged. -/
structure Idle (before after : Registry) : Prop where
  entries : after.entries = before.entries
  hits : after.hits = before.hits
  misses : after.misses = before.misses
  serials : before.nextSerial ≤ after.nextSerial

/-- No type loses its instance from one registry to the other. -/
structure Grows (before after : Registry) : Prop where
  types : ∀ t, before.lookup t ≠ none → after.lookup t ≠ none
  size : before.size ≤ after.size

variable {a b c : Registry} {t : Ty}

theorem Idle.refl (registry : Registry) : registry.Idle registry := ⟨rfl, rfl, rfl, Nat.le_refl _⟩

theorem Idle.trans (one : a.Idle b) (two : b.Idle c) : a.Idle c :=
  ⟨two.entries.trans one.entries, two.hits.trans one.hits, two.misses.trans one.misses,
    Nat.le_trans one.serials two.serials⟩

theorem Idle.lookup (idle : a.Idle b) (t : Ty) : b.lookup t = a.lookup t :=
  congrArg (find? t) idle.entries

theorem Grows.refl (registry : Registry) : registry.Grows registry := ⟨fun _ held => held, Nat.le_refl _⟩

theorem Grows.trans (one : a.Grows b) (two : b.Grows c) : a.Grows c :=
  ⟨fun t held => two.types t (one.types t held), Nat.le_trans one.size two.size⟩

theorem Grows.of_entries (same : b.entries = a.entries) : a.Grows b := by
  constructor
  · intro t held
    rwa [Registry.lookup, same]
  · simp [Registry.size, same]

theorem Grows.of_put {inst : Instance t} (puts : b.entries = put inst a.entries) : a.Grows b := by
  constructor
  · intro u held
    rw [← mem_types_iff] at held ⊢
    rw [Registry.types, puts]
    exact mem_keys_put.mpr (.inr held)
  · rw [Registry.size, Registry.size, puts]
    exact length_le_put inst a.entries

end Registry

open Registry

/-! ### What one call does -/

/-- How a call may return, where `last` is the registry that the call before it left. -/
inductive Returns (last : Registry) : Call → Prop
  | looked {before : Registry} (t : Ty) (idle : last.Idle before) :
      Returns last ⟨before, .looked t (before.lookup t), before⟩
  | registered {before after : Registry} {t : Ty} (inst : Instance t) (idle : last.Idle before)
      (puts : Idle { last with entries := put inst last.entries } after) :
      Returns last ⟨before, .registered t inst (before.lookup t), after⟩
  /-- The type had an instance when the resolution began. -/
  | held {before after : Registry} {t : Ty} {inst : Instance t} (idle : last.Idle before)
      (found : before.lookup t = some inst) (counts : Idle { last with hits := countUp last.hits } after) :
      Returns last ⟨before, .resolved t inst, after⟩
  /-- The type came to have an instance while one was built for it. -/
  | outrun {before after : Registry} {t : Ty} {inst : Instance t} (missing : before.lookup t = none)
      (grows : before.Grows last) (found : last.lookup t = some inst)
      (counts : Idle { last with misses := countUp last.misses } after) :
      Returns last ⟨before, .resolved t inst, after⟩
  | built {before after : Registry} {t : Ty} {inst : Instance t} (missing : before.lookup t = none)
      (grows : before.Grows last) (nothing : last.lookup t = none)
      (counts : Idle { last with entries := put inst last.entries, misses := countUp last.misses } after) :
      Returns last ⟨before, .resolved t inst, after⟩

/-- Calls that return one after the other, from one registry to another. -/
inductive Chain : Registry → List Call → Registry → Prop
  | rest {first final : Registry} (idle : first.Idle final) : Chain first [] final
  | call {first final : Registry} {call : Call} {calls : List Call} (returns : Returns first call)
      (chain : Chain call.after calls final) : Chain first (call :: calls) final

namespace Returns

variable {last : Registry} {call : Call} {t : Ty} {inst : Instance t}

theorem of_idle {first : Registry} (idle : first.Idle last) (returns : Returns last call) : Returns first call := by
  have grows := Grows.of_entries idle.entries.symm
  cases returns with
  | looked t idle' => exact .looked t (idle.trans idle')
  | registered inst idle' puts =>
    exact .registered inst (idle.trans idle')
      ⟨by simpa [idle.entries] using puts.entries, puts.hits.trans idle.hits, puts.misses.trans idle.misses,
        Nat.le_trans idle.serials puts.serials⟩
  | held idle' found counts =>
    exact .held (idle.trans idle') found
      ⟨counts.entries.trans idle.entries, by simpa [idle.hits] using counts.hits, counts.misses.trans idle.misses,
        Nat.le_trans idle.serials counts.serials⟩
  | outrun missing grown found counts =>
    exact .outrun missing (grown.trans grows) ((idle.lookup _).symm.trans found)
      ⟨counts.entries.trans idle.entries, counts.hits.trans idle.hits, by simpa [idle.misses] using counts.misses,
        Nat.le_trans idle.serials counts.serials⟩
  | built missing grown nothing counts =>
    exact .built missing (grown.trans grows) ((idle.lookup _).symm.trans nothing)
      ⟨by simpa [idle.entries] using counts.entries, counts.hits.trans idle.hits,
        by simpa [idle.misses] using counts.misses, Nat.le_trans idle.serials counts.serials⟩

theorem grows (returns : Returns last call) : last.Grows call.after := by
  cases returns with
  | looked t idle => exact .of_entries idle.entries
  | registered inst idle puts => exact .of_put puts.entries
  | held idle found counts => exact .of_entries counts.entries
  | outrun missing grown found counts => exact .of_entries counts.entries
  | built missing grown nothing counts => exact .of_put counts.entries

theorem before_grows (returns : Returns last call) : call.before.Grows call.after := by
  have grown := returns.grows
  cases returns with
  | looked t idle => exact .refl _
  | registered inst idle puts => exact (Grows.of_entries idle.entries.symm).trans grown
  | held idle found counts => exact (Grows.of_entries idle.entries.symm).trans grown
  | outrun missing before found counts => exact before.trans grown
  | built missing before nothing counts => exact before.trans grown

/-- The instance that a call gives to a type is found right after the call. -/
theorem lookup_of_gives (returns : Returns last call) (gives : call.reply.Gives t inst) :
    call.after.lookup t = some inst := by
  cases returns with
  | looked u idle => rcases gives with same | ⟨replaced, same⟩ <;> cases same
  | registered other idle puts =>
    rcases gives with same | ⟨replaced, same⟩
    · cases same
    · cases same
      exact (puts.lookup t).trans (find?_put_self inst last.entries)
  | held idle found counts =>
    rcases gives with same | ⟨replaced, same⟩
    · cases same
      exact (counts.lookup t).trans ((idle.lookup t).symm.trans found)
    · cases same
  | outrun missing grown found counts =>
    rcases gives with same | ⟨replaced, same⟩
    · cases same
      exact (counts.lookup t).trans found
    · cases same
  | built missing grown nothing counts =>
    rcases gives with same | ⟨replaced, same⟩
    · cases same
      exact (counts.lookup t).trans (find?_put_self inst last.entries)
    · cases same

/-- A type keeps its instance over a call that does not register one for it, and that is the reply to the call. -/
theorem stays (returns : Returns last call) (found : last.lookup t = some inst)
    (other : ¬ call.reply.Registers t) : call.reply.Agrees t inst ∧ call.after.lookup t = some inst := by
  cases returns with
  | looked u idle =>
    have still := (idle.lookup t).trans found
    refine ⟨⟨nofun, ?_⟩, still⟩
    intro found' same
    cases same
    exact still
  | @registered before after u made idle puts =>
    have different : t ≠ u := by
      rintro rfl
      exact other ⟨made, _, rfl⟩
    refine ⟨⟨nofun, nofun⟩, ?_⟩
    exact (puts.lookup t).trans ((find?_put_of_ne made last.entries different).trans found)
  | held idle found' counts =>
    refine ⟨⟨?_, nofun⟩, (counts.lookup t).trans found⟩
    intro _ same
    cases same
    exact Option.some.inj (found'.symm.trans ((idle.lookup t).trans found))
  | outrun missing grown found' counts =>
    refine ⟨⟨?_, nofun⟩, (counts.lookup t).trans found⟩
    intro _ same
    cases same
    exact Option.some.inj (found'.symm.trans found)
  | @built before after u made missing grown nothing counts =>
    have different : t ≠ u := by
      rintro rfl
      rw [nothing] at found
      cases found
    refine ⟨⟨?_, nofun⟩, ?_⟩
    · intro _ same
      cases same
      exact absurd rfl different
    · exact (counts.lookup t).trans ((find?_put_of_ne made last.entries different).trans found)

theorem of_looked {found : Option (Instance t)} (returns : Returns last call) (looks : call.reply = .looked t found) :
    found = call.before.lookup t ∧ call.after = call.before := by
  cases returns with
  | looked u idle =>
    cases looks
    exact ⟨rfl, rfl⟩
  | _ => cases looks

theorem of_registered {replaced : Option (Instance t)} (returns : Returns last call)
    (registers : call.reply = .registered t inst replaced) :
    replaced = call.before.lookup t ∧ call.after.lookup t = some inst ∧
      ∀ u, u ≠ t → call.after.lookup u = call.before.lookup u := by
  have gives := returns.lookup_of_gives (.inr ⟨replaced, registers⟩)
  cases returns with
  | registered other idle puts =>
    cases registers
    refine ⟨rfl, gives, ?_⟩
    intro u different
    exact (puts.lookup u).trans ((find?_put_of_ne inst last.entries different).trans (idle.lookup u).symm)
  | _ => cases registers

/-- A type that has an instance is resolved by that. -/
theorem of_resolved {held : Instance t} (returns : Returns last call) (resolves : call.reply = .resolved t inst)
    (found : call.before.lookup t = some held) : inst = held := by
  cases returns with
  | looked u idle => cases resolves
  | registered other idle puts => cases resolves
  | held idle found' counts =>
    cases resolves
    exact Option.some.inj (found'.symm.trans found)
  | outrun missing grown found' counts =>
    cases resolves
    cases missing.symm.trans found
  | built missing grown nothing counts =>
    cases resolves
    cases missing.symm.trans found

theorem nodup_types (returns : Returns last call) (distinct : last.types.Nodup) : call.after.types.Nodup := by
  unfold Registry.types at distinct ⊢
  cases returns with
  | looked u idle => rwa [idle.entries]
  | registered inst idle puts =>
    rw [puts.entries]
    exact nodup_keys_put distinct
  | held idle found counts => rwa [counts.entries]
  | outrun missing grown found counts => rwa [counts.entries]
  | built missing grown nothing counts =>
    rw [counts.entries]
    exact nodup_keys_put distinct

end Returns

/-! ### Counting -/

/-- What the counts of a registry show after so many hits and misses. -/
structure Registry.Shows (registry : Registry) (hits misses : Nat) : Prop where
  hits : registry.hits = counted hits
  misses : registry.misses = counted misses

theorem Registry.Idle.shows {a b : Registry} {hits misses : Nat} (idle : a.Idle b) (shows : a.Shows hits misses) :
    b.Shows hits misses := ⟨idle.hits.trans shows.hits, idle.misses.trans shows.misses⟩

/-- Each resolution is counted once, by whether its type had an instance when it began. -/
theorem Returns.shows {last : Registry} {call : Call} {hits misses : Nat} (returns : Returns last call)
    (shows : last.Shows hits misses) :
    call.after.Shows (hits + [call].countP Call.isHit) (misses + [call].countP Call.isMiss) := by
  have hit := countUp_counted hits
  have miss := countUp_counted misses
  rw [← shows.hits] at hit
  rw [← shows.misses] at miss
  cases returns with
  | looked u idle => exact idle.shows shows
  | registered inst idle puts => exact puts.shows ⟨shows.hits, shows.misses⟩
  | held idle found counts =>
    simp only [List.countP_singleton, Call.isHit, Call.isMiss, found]
    exact counts.shows ⟨hit, shows.misses⟩
  | outrun missing grown found counts =>
    simp only [List.countP_singleton, Call.isHit, Call.isMiss, missing]
    exact counts.shows ⟨shows.hits, miss⟩
  | built missing grown nothing counts =>
    simp only [List.countP_singleton, Call.isHit, Call.isMiss, missing]
    exact counts.shows ⟨shows.hits, miss⟩

/-! ### Chains of calls -/

namespace Chain

variable {first middle final : Registry} {calls more : List Call} {t : Ty} {inst : Instance t}

theorem of_idle (idle : first.Idle middle) (chain : Chain middle calls final) : Chain first calls final := by
  cases chain with
  | rest idle' => exact .rest (idle.trans idle')
  | call returns chain => exact .call (returns.of_idle idle) chain

theorem append (one : Chain first calls middle) (two : Chain middle more final) :
    Chain first (calls ++ more) final := by
  induction one with
  | rest idle => exact two.of_idle idle
  | call returns _ ih => exact .call returns (ih two)

/-- Every call returns to the registry that the calls before it left. -/
theorem split {call : Call} (chain : Chain first (calls ++ call :: more) final) :
    ∃ last, Chain first calls last ∧ Returns last call ∧ Chain call.after more final := by
  induction calls generalizing first with
  | nil =>
    obtain _ | ⟨returns, chain⟩ := chain
    exact ⟨first, .rest (.refl first), returns, chain⟩
  | cons head calls ih =>
    obtain _ | ⟨returns, chain⟩ := chain
    obtain ⟨last, before, returns', after⟩ := ih chain
    exact ⟨last, .call returns before, returns', after⟩

theorem returns_of_mem {call : Call} (chain : Chain first calls final) (member : call ∈ calls) :
    ∃ last, Returns last call := by
  obtain ⟨front, rest, rfl⟩ := List.append_of_mem member
  obtain ⟨last, -, returns, -⟩ := chain.split
  exact ⟨last, returns⟩

theorem grows (chain : Chain first calls final) : first.Grows final := by
  induction chain with
  | rest idle => exact .of_entries idle.entries
  | call returns _ ih => exact returns.grows.trans ih

theorem pairwise_grows (chain : Chain first calls final) :
    calls.Pairwise fun earlier later => earlier.after.Grows later.after := by
  induction chain with
  | rest idle => exact .nil
  | call returns chain ih =>
    refine .cons ?_ ih
    intro later member
    obtain ⟨front, rest, rfl⟩ := List.append_of_mem member
    obtain ⟨last, before, returns', -⟩ := chain.split
    exact before.grows.trans returns'.grows

theorem nodup_types (chain : Chain first calls final) (distinct : first.types.Nodup) : final.types.Nodup := by
  induction chain with
  | rest idle =>
    unfold Registry.types at distinct ⊢
    rwa [idle.entries]
  | call returns _ ih => exact ih (returns.nodup_types distinct)

/-- While none is registered for a type, it keeps its instance, and every reply on it is that. -/
theorem stays (chain : Chain first calls final) (found : first.lookup t = some inst)
    (others : ∀ call ∈ calls, ¬ call.reply.Registers t) :
    (∀ call ∈ calls, call.reply.Agrees t inst) ∧ final.lookup t = some inst := by
  induction chain with
  | rest idle => exact ⟨by simp, (idle.lookup t).trans found⟩
  | call returns _ ih =>
    obtain ⟨agrees, found'⟩ := returns.stays found (others _ List.mem_cons_self)
    obtain ⟨agree, found''⟩ := ih found' fun call member => others call (List.mem_cons_of_mem _ member)
    exact ⟨List.forall_mem_cons.mpr ⟨agrees, agree⟩, found''⟩

theorem shows {hits misses : Nat} (chain : Chain first calls final) (shows : first.Shows hits misses) :
    final.Shows (hits + calls.countP Call.isHit) (misses + calls.countP Call.isMiss) := by
  induction chain generalizing hits misses with
  | rest idle => exact idle.shows shows
  | @call first final call calls returns _ ih =>
    have counts := ih (returns.shows shows)
    rw [Nat.add_assoc, Nat.add_assoc, ← List.countP_append, ← List.countP_append] at counts
    exact counts

end Chain

/-- The calls of a client are a chain, from the registry it is given to the one it leaves. -/
theorem Client.chain_history {α : Type} (client : Client α) (registry : Registry) :
    Chain registry (client.history registry) (client.run.run registry).2 := by
  induction client generalizing registry with
  | done result => exact .rest (.refl registry)
  | make codec components next ih =>
    have idle : registry.Idle ((RegistryM.instantiate codec components).run registry).2 :=
      ⟨rfl, rfl, rfl, Nat.le_succ _⟩
    exact .of_idle idle (ih _ _)
  | lookup t next ih => exact .call (.looked t (.refl registry)) (ih _ _)
  | @register α t inst next ih =>
    exact .call (.registered inst (.refl registry) ⟨rfl, rfl, rfl, Nat.le_refl _⟩) (ih _ _)
  | resolve t build next ihBuild ih =>
    cases found : registry.lookup t with
    | some held =>
      have settles := RegistryM.run_settle_held build.run found
      rw [run, history, RegistryM.run_bind _ settles, found, settles]
      exact .call (.held (.refl registry) found (.refl _)) (ih held _)
    | none =>
      have nested := ihBuild (opened t registry)
      have opens : registry.Idle (opened t registry) := ⟨rfl, rfl, rfl, Nat.le_refl _⟩
      have grows : registry.Grows _ := (Grows.of_entries opens.entries).trans nested.grows
      obtain ⟨outruns, builds⟩ := RegistryM.run_settle_missing build.run found rfl
      cases there : (build.run.run (opened t registry)).2.lookup t with
      | some held =>
        have settles := outruns held there
        rw [run, history, RegistryM.run_bind _ settles, found, settles]
        refine .of_idle opens (nested.append ?_)
        exact .call (.outrun found grows there ⟨rfl, rfl, rfl, Nat.le_refl _⟩) (ih held _)
      | none =>
        have settles := builds there
        rw [run, history, RegistryM.run_bind _ settles, found, settles]
        refine .of_idle opens (nested.append ?_)
        exact .call (.built found grows there ⟨rfl, rfl, rfl, Nat.le_refl _⟩) (ih _ _)

/-! ### Serial numbers -/

/-- The serial numbers are those from `first` on, and `next` is the one behind them. -/
structure Numbered (first : Nat) (serials : List Nat) (next : Nat) : Prop where
  all : serials = List.range' first serials.length
  behind : next = first + serials.length

namespace Numbered

variable {first middle next : Nat} {serials more : List Nat}

theorem nil (first : Nat) : Numbered first [] first := ⟨rfl, rfl⟩

theorem cons (numbered : Numbered (first + 1) serials next) : Numbered first (first :: serials) next := by
  obtain ⟨all, behind⟩ := numbered
  constructor
  · rw [List.length_cons, List.range'_succ, ← all]
  · rw [List.length_cons, behind]
    omega

theorem append (one : Numbered first serials middle) (two : Numbered middle more next) :
    Numbered first (serials ++ more) next := by
  obtain ⟨all, behind⟩ := one
  obtain ⟨all', behind'⟩ := two
  rw [behind] at all' behind'
  constructor
  · rw [List.length_append, ← List.range'_append_1, ← all, ← all']
  · rw [List.length_append, behind', Nat.add_assoc]

end Numbered

/-- Instances are numbered as they are made. -/
theorem Client.numbered_serials {α : Type} (client : Client α) (registry : Registry) {first : Nat}
    (start : registry.nextSerial = first) :
    Numbered first (client.serials registry) (client.run.run registry).2.nextSerial := by
  induction client generalizing registry first with
  | done result =>
    subst start
    exact .nil registry.nextSerial
  | make codec components next ih =>
    subst start
    exact .cons (ih _ _ rfl)
  | lookup t next ih => exact ih _ _ start
  | register inst next ih => exact ih _ _ start
  | resolve t build next ihBuild ih =>
    cases found : registry.lookup t with
    | some held =>
      have settles := RegistryM.run_settle_held build.run found
      rw [run, serials, RegistryM.run_bind _ settles, found, settles]
      exact ih held _ start
    | none =>
      have nested := ihBuild (opened t registry) start
      obtain ⟨outruns, builds⟩ := RegistryM.run_settle_missing build.run found rfl
      cases there : (build.run.run (opened t registry)).2.lookup t with
      | some held =>
        have settles := outruns held there
        rw [run, serials, RegistryM.run_bind _ settles, found, settles]
        exact nested.append (ih held _ rfl)
      | none =>
        have settles := builds there
        rw [run, serials, RegistryM.run_bind _ settles, found, settles]
        exact nested.append (ih _ _ rfl)

/-! ### Coherence -/

/-- What calls on a fresh registry have in common, listed in the order in which they return. -/
structure Coherent (calls : List Call) : Prop where
  found : ∀ call ∈ calls, ∀ t inst, call.reply = .resolved t inst → call.after.lookup t = some inst
  /-- A resolution gives the instance that the type had when it began, if it had one. -/
  first : ∀ call ∈ calls, ∀ t inst held, call.reply = .resolved t inst → call.before.lookup t = some held →
    inst = held
  /-- Once a type has an instance by a resolution or by being registered, lookups and resolutions of the type that
  return later give that instance, until the next one is registered for it. -/
  stays : ∀ front between rest earlier later t inst, calls = front ++ earlier :: (between ++ later :: rest) →
    earlier.reply.Gives t inst → (∀ call ∈ between, ¬ call.reply.Registers t) → later.reply.Agrees t inst
  looked : ∀ call ∈ calls, ∀ t found, call.reply = .looked t found →
    found = call.before.lookup t ∧ call.after = call.before
  /-- Registering gives back what a lookup would have given before, and changes one type. -/
  registered : ∀ call ∈ calls, ∀ t inst replaced, call.reply = .registered t inst replaced →
    replaced = call.before.lookup t ∧ call.after.lookup t = some inst ∧
      ∀ u, u ≠ t → call.after.lookup u = call.before.lookup u
  /-- No type ever leaves the table. -/
  grows : (∀ call ∈ calls, call.before.Grows call.after) ∧
    calls.Pairwise fun earlier later => earlier.after.Grows later.after
  sized : ∀ call ∈ calls, call.after.types.Nodup ∧ (∀ t, t ∈ call.after.types ↔ call.after.lookup t ≠ none) ∧
    call.after.size = call.after.types.length ∧ (call.after.isEmpty = true ↔ call.after.size = 0)
  /-- When a call has returned, the counts are those of the resolutions that have returned, each counted by whether
  its type had an instance when it began. -/
  counted : ∀ front call rest, calls = front ++ call :: rest →
    call.after.Shows ((front ++ [call]).countP Call.isHit) ((front ++ [call]).countP Call.isMiss)

/-- Whatever a client does with a fresh registry, all its calls are coherent, those included that are made while an
instance is built, by whatever builds it. The instances that are made meanwhile are numbered one after the other, so
that the serial number tells each from all others. Resolving types of the library is what such clients do. -/
theorem registry_coherent :
    (∀ types : List Ty, (Client.resolving types).run = types.forM fun t => discard (RegistryM.resolve t)) ∧
      ∀ {α : Type} (client : Client α), Coherent (client.history .empty) ∧
        client.serials .empty = List.range (client.serials .empty).length := by
  refine ⟨Client.run_resolving, ?_⟩
  intro α client
  refine ⟨?_, (client.numbered_serials .empty rfl).all.trans List.range_eq_range'.symm⟩
  have chain := client.chain_history .empty
  have distinct : Registry.empty.types.Nodup := List.nodup_nil
  have fresh : Registry.empty.Shows 0 0 := ⟨rfl, rfl⟩
  constructor
  · intro call member t inst resolves
    obtain ⟨last, returns⟩ := chain.returns_of_mem member
    exact returns.lookup_of_gives (.inl resolves)
  · intro call member t inst held resolves there
    obtain ⟨last, returns⟩ := chain.returns_of_mem member
    exact returns.of_resolved resolves there
  · intro front between rest earlier later t inst split gives others
    rw [split] at chain
    obtain ⟨_, -, gave, chain⟩ := chain.split
    obtain ⟨last, chain, returns, -⟩ := chain.split
    obtain ⟨-, still⟩ := chain.stays (gave.lookup_of_gives gives) others
    by_cases registers : later.reply.Registers t
    · obtain ⟨other, replaced, same⟩ := registers
      rw [Reply.Agrees, same]
      exact ⟨nofun, nofun⟩
    · exact (returns.stays still registers).1
  · intro call member t found looks
    obtain ⟨last, returns⟩ := chain.returns_of_mem member
    exact returns.of_looked looks
  · intro call member t inst replaced registers
    obtain ⟨last, returns⟩ := chain.returns_of_mem member
    exact returns.of_registered registers
  · refine ⟨?_, chain.pairwise_grows⟩
    intro call member
    obtain ⟨last, returns⟩ := chain.returns_of_mem member
    exact returns.before_grows
  · intro call member
    obtain ⟨front, rest, split⟩ := List.append_of_mem member
    rw [split] at chain
    obtain ⟨last, before, returns, -⟩ := chain.split
    refine ⟨returns.nodup_types (before.nodup_types distinct), fun t => mem_types_iff, ?_, ?_⟩
    · simp [Registry.size, Registry.types]
    · simp [Registry.isEmpty, Registry.size]
  · intro front call rest split
    rw [split] at chain
    obtain ⟨last, before, returns, -⟩ := chain.split
    have counts := returns.shows (before.shows fresh)
    rw [Nat.zero_add, Nat.zero_add, ← List.countP_append, ← List.countP_append] at counts
    exact counts

end TypedWire
