-- The cooldown of the faucet. A request is checked under one lock and recorded under another, so
-- the cooldown holds as long as no request passes its checks while another one for the same
-- recipient is between the two.
import Pemrix.Faucet

open Std

namespace Pemrix

namespace FaucetSystem

/-- The cooldown in nanoseconds. -/
def cooldown (faucet : FaucetState) : Nat := faucet.cooldown_seconds.toNat * 10 ^ 9

/-- Two drips to one recipient were recorded a cooldown apart at least. -/
def CooldownHeld (faucet : FaucetState) (w : FaucetSystem) : Prop :=
  ∀ (i j : Nat) (recipient : Address) (t t' : Nat),
    w.handlers[i]?.bind FaucetHandler.record = some (recipient, t) →
    w.handlers[j]?.bind FaucetHandler.record = some (recipient, t') → i ≠ j →
    t + cooldown faucet ≤ t' ∨ t' + cooldown faucet ≤ t

/-- A request that passes its checks is alone: no other one for its recipient is between its
check and its recording. -/
def PassesAlone (faucet : FaucetState) (w : FaucetSystem) : FaucetAction → Prop
  | .request address amount =>
    ∀ recipient ∈ (check faucet w.cooldowns w.now address amount).in_flight,
      ∀ h ∈ w.handlers, h.in_flight ≠ some recipient
  | _ => True

instance (faucet : FaucetState) (w : FaucetSystem) (action : FaucetAction) :
    Decidable (w.PassesAlone faucet action) :=
  match action with
  | .request address amount => inferInstanceAs (Decidable
      (∀ recipient ∈ (check faucet w.cooldowns w.now address amount).in_flight,
        ∀ h ∈ w.handlers, h.in_flight ≠ some recipient))
  | .resume _ | .tick _ | .services_ingest _ | .testnet_ingest _ | .store _ => isTrue trivial

/-! ## What a run preserves -/

/-- The recorded drips are known to the cooldowns, and a request on its way to a recipient is
the only one and late enough after all that were recorded. -/
structure Spaced (faucet : FaucetState) (w : FaucetSystem) : Prop where
  known : ∀ h ∈ w.handlers, ∀ recipient t, h.record = some (recipient, t) →
    t ≤ w.now ∧ ∃ last, w.cooldowns[recipient]? = some last ∧ t ≤ last
  late : ∀ h ∈ w.handlers, ∀ recipient, h.in_flight = some recipient →
    ∀ h' ∈ w.handlers, ∀ t, h'.record = some (recipient, t) → t + cooldown faucet ≤ w.now
  alone : ∀ (i j : Nat) (h h' : FaucetHandler) (recipient : Address), w.handlers[i]? = some h →
    w.handlers[j]? = some h' → h.in_flight = some recipient → h'.in_flight = some recipient → i = j
  held : w.CooldownHeld faucet

theorem spaced_start (faucet : FaucetState) (rpc : RpcState) : (start rpc).Spaced faucet where
  known := by simp [start]
  late := by simp [start]
  alone := by simp [start]
  held := by
    intro i j recipient t t' hi
    simp [start] at hi

variable {faucet : FaucetState} {w w' : FaucetSystem}

/-- A handler has nothing of its own: it is neither on its way nor recorded. -/
def Idle (h : FaucetHandler) : Prop := h.record = none ∧ h.in_flight = none

/-- Handler `j` is idle now, or it goes on without a recording. -/
def GoesOn (w : FaucetSystem) (j : Nat) (g' : FaucetHandler) : Prop :=
  Idle g' ∨ ∃ g, w.handlers[j]? = some g ∧ g'.record = g.record ∧
    ∀ recipient, g'.in_flight = some recipient → g.in_flight = some recipient

theorem goesOn_self {j : Nat} {g : FaucetHandler} (h : w.handlers[j]? = some g) : w.GoesOn j g :=
  .inr ⟨g, h, rfl, fun _ hin => hin⟩

/-- Time passes, and handlers go on without a recording. -/
theorem Spaced.goes_on (h : w.Spaced faucet) (hcooldowns : w'.cooldowns = w.cooldowns)
    (hnow : w.now ≤ w'.now)
    (hhandlers : ∀ (j : Nat) (g' : FaucetHandler), w'.handlers[j]? = some g' → w.GoesOn j g') :
    w'.Spaced faucet := by
  have hrecord : ∀ (j : Nat) (g' : FaucetHandler) (recipient : Address) (t : Nat),
      w'.handlers[j]? = some g' → g'.record = some (recipient, t) →
      ∃ g, w.handlers[j]? = some g ∧ g.record = some (recipient, t) := by
    intro j g' recipient t hj ht
    rcases hhandlers j g' hj with hidle | ⟨g, hg, hsame, -⟩
    · rw [hidle.1] at ht
      cases ht
    · exact ⟨g, hg, hsame ▸ ht⟩
  have hflight : ∀ (j : Nat) (g' : FaucetHandler) (recipient : Address),
      w'.handlers[j]? = some g' → g'.in_flight = some recipient →
      ∃ g, w.handlers[j]? = some g ∧ g.in_flight = some recipient := by
    intro j g' recipient hj hin
    rcases hhandlers j g' hj with hidle | ⟨g, hg, -, hkeeps⟩
    · rw [hidle.2] at hin
      cases hin
    · exact ⟨g, hg, hkeeps recipient hin⟩
  refine ⟨?_, ?_, ?_, ?_⟩
  · intro g' hmem recipient t ht
    obtain ⟨j, hj⟩ := List.mem_iff_getElem?.mp hmem
    obtain ⟨g, hg, hgt⟩ := hrecord j g' recipient t hj ht
    obtain ⟨hle, hlast⟩ := h.known g (List.mem_of_getElem? hg) recipient t hgt
    rw [hcooldowns]
    exact ⟨Nat.le_trans hle hnow, hlast⟩
  · intro g' hmem recipient hin k' hmem' t ht
    obtain ⟨j, hj⟩ := List.mem_iff_getElem?.mp hmem
    obtain ⟨j', hj'⟩ := List.mem_iff_getElem?.mp hmem'
    obtain ⟨g, hg, hgin⟩ := hflight j g' recipient hj hin
    obtain ⟨k, hk, hkt⟩ := hrecord j' k' recipient t hj' ht
    exact Nat.le_trans (h.late g (List.mem_of_getElem? hg) recipient hgin k
      (List.mem_of_getElem? hk) t hkt) hnow
  · intro i j g' k' recipient hi hj hin hin'
    obtain ⟨g, hg, hgin⟩ := hflight i g' recipient hi hin
    obtain ⟨k, hk, hkin⟩ := hflight j k' recipient hj hin'
    exact h.alone i j g k recipient hg hk hgin hkin
  · intro i j recipient t t' hi hj hij
    obtain ⟨g', hg', ht⟩ := Option.bind_eq_some_iff.mp hi
    obtain ⟨k', hk', ht'⟩ := Option.bind_eq_some_iff.mp hj
    obtain ⟨g, hg, hgt⟩ := hrecord i g' recipient t hg' ht
    obtain ⟨k, hk, hkt⟩ := hrecord j k' recipient t' hk' ht'
    exact h.held i j recipient t t' (by rw [hg]; exact hgt) (by rw [hk]; exact hkt) hij

/-- A request passes its checks, alone. -/
theorem Spaced.passes (h : w.Spaced faucet) {recipient : Address} {units : U128}
    (hcooldown : ∀ last, w.cooldowns[recipient]? = some last → cooldown faucet ≤ w.now - last)
    (halone : ∀ g ∈ w.handlers, g.in_flight ≠ some recipient) :
    Spaced faucet { w with handlers := w.handlers ++ [.checked recipient units] } := by
  have hlate : ∀ g ∈ w.handlers, ∀ t, g.record = some (recipient, t) →
      t + cooldown faucet ≤ w.now := by
    intro g hg t ht
    obtain ⟨hle, last, hlast, hbefore⟩ := h.known g hg recipient t ht
    have := hcooldown last hlast
    omega
  have hrecord : ∀ g ∈ w.handlers ++ [FaucetHandler.checked recipient units], ∀ r t,
      g.record = some (r, t) → g ∈ w.handlers := by
    intro g hg r t ht
    rcases List.mem_append.mp hg with hold | hnew
    · exact hold
    · rw [List.mem_singleton.mp hnew] at ht
      cases ht
  refine ⟨?_, ?_, ?_, ?_⟩
  · intro g hg r t ht
    exact h.known g (hrecord g hg r t ht) r t ht
  · intro g hg r hin k hk t ht
    have hk := hrecord k hk r t ht
    rcases List.mem_append.mp hg with hold | hnew
    · exact h.late g hold r hin k hk t ht
    · rw [List.mem_singleton.mp hnew] at hin
      cases hin
      exact hlate k hk t ht
  · intro i j g k r hi hj hin hin'
    rcases getElem?_snoc_cases hi with ⟨hilen, rfl⟩ | hi
    · cases hin
      rcases getElem?_snoc_cases hj with ⟨hjlen, -⟩ | hj
      · omega
      · exact absurd hin' (halone k (List.mem_of_getElem? hj))
    · rcases getElem?_snoc_cases hj with ⟨-, rfl⟩ | hj
      · cases hin'
        exact absurd hin (halone g (List.mem_of_getElem? hi))
      · exact h.alone i j g k r hi hj hin hin'
  · have hold : ∀ (i : Nat) (r : Address) (t : Nat),
        (w.handlers ++ [FaucetHandler.checked recipient units])[i]?.bind FaucetHandler.record =
          some (r, t) → w.handlers[i]?.bind FaucetHandler.record = some (r, t) := by
      intro i r t hi
      obtain ⟨g, hg, ht⟩ := Option.bind_eq_some_iff.mp hi
      rcases getElem?_snoc_cases hg with ⟨-, rfl⟩ | hg
      · cases ht
      · rw [hg]
        exact ht
    intro i j r t t' hi hj hij
    exact h.held i j r t t' (hold i r t hi) (hold j r t' hj) hij

/-- A drip is recorded. -/
theorem Spaced.records (h : w.Spaced faucet) {i : Nat} {recipient : Address} {tx : Transaction}
    {hash : Hash} (hget : w.handlers[i]? = some (.submitted recipient tx hash)) :
    Spaced faucet { w with
      cooldowns := w.cooldowns.insert recipient w.now
      handlers := w.handlers.set i (.sent recipient tx hash w.now) } := by
  have hsubmitted : (FaucetHandler.submitted recipient tx hash).in_flight = some recipient := rfl
  have hlate := h.late _ (List.mem_of_getElem? hget) recipient hsubmitted
  -- A recorded drip is the new one or an old one; a request on its way is not handler `i`.
  have hrecord : ∀ (j : Nat) (g : FaucetHandler) (r : Address) (t : Nat),
      (w.handlers.set i (.sent recipient tx hash w.now))[j]? = some g → g.record = some (r, t) →
      i = j ∧ r = recipient ∧ t = w.now ∨
        i ≠ j ∧ ∃ g ∈ w.handlers, w.handlers[j]? = some g ∧ g.record = some (r, t) := by
    intro j g r t hj ht
    rcases getElem?_set_cases hj with ⟨hij, rfl⟩ | ⟨hij, hj⟩
    · cases ht
      exact .inl ⟨hij, rfl, rfl⟩
    · exact .inr ⟨hij, g, List.mem_of_getElem? hj, hj, ht⟩
  have hflight : ∀ (j : Nat) (g : FaucetHandler) (r : Address),
      (w.handlers.set i (.sent recipient tx hash w.now))[j]? = some g → g.in_flight = some r →
      w.handlers[j]? = some g ∧ r ≠ recipient := by
    intro j g r hj hin
    rcases getElem?_set_cases hj with ⟨-, rfl⟩ | ⟨hij, hold⟩
    · cases hin
    · refine ⟨hold, ?_⟩
      rintro rfl
      exact hij (h.alone i j _ g r hget hold hsubmitted hin)
  refine ⟨?_, ?_, ?_, ?_⟩
  · intro g hmem r t ht
    obtain ⟨j, hj⟩ := List.mem_iff_getElem?.mp hmem
    rw [ExtTreeMap.getElem?_insert]
    rcases hrecord j g r t hj ht with ⟨-, rfl, rfl⟩ | ⟨-, k, hk, -, hkt⟩
    · exact ⟨Nat.le_refl _, w.now, by rw [if_pos ReflOrd.compare_self], Nat.le_refl _⟩
    · obtain ⟨hle, last, hlast, hbefore⟩ := h.known k hk r t hkt
      refine ⟨hle, ?_⟩
      split
      · exact ⟨w.now, rfl, hle⟩
      · exact ⟨last, hlast, hbefore⟩
  · intro g hmem r hin k hmem' t ht
    obtain ⟨j, hj⟩ := List.mem_iff_getElem?.mp hmem
    obtain ⟨j', hj'⟩ := List.mem_iff_getElem?.mp hmem'
    obtain ⟨hg, hr⟩ := hflight j g r hj hin
    rcases hrecord j' k r t hj' ht with ⟨-, rfl, -⟩ | ⟨-, k', hk', -, hkt⟩
    · exact absurd rfl hr
    · exact h.late g (List.mem_of_getElem? hg) r hin k' hk' t hkt
  · intro j j' g k r hj hj' hin hin'
    exact h.alone j j' g k r (hflight j g r hj hin).1 (hflight j' k r hj' hin').1 hin hin'
  · intro j j' r t t' hj hj' hne
    obtain ⟨g, hg, ht⟩ := Option.bind_eq_some_iff.mp hj
    obtain ⟨k, hk, ht'⟩ := Option.bind_eq_some_iff.mp hj'
    rcases hrecord j g r t hg ht with ⟨rfl, rfl, rfl⟩ | ⟨-, g', hmem, hg', hgt⟩
    · rcases hrecord j' k r t' hk ht' with ⟨rfl, -, -⟩ | ⟨-, k', hmem', -, hkt⟩
      · exact absurd rfl hne
      · exact .inr (hlate k' hmem' t' hkt)
    · rcases hrecord j' k r t' hk ht' with ⟨-, rfl, rfl⟩ | ⟨-, k', hmem', hk', hkt⟩
      · exact .inl (hlate g' hmem t hgt)
      · exact h.held j j' r t t' (by rw [hg']; exact hgt) (by rw [hk']; exact hkt) hne

variable [Crates]

theorem Spaced.resume (h : w.Spaced faucet) (i : Nat) : (w.resume faucet i).Spaced faucet := by
  have hset : ∀ g' : FaucetHandler, w.GoesOn i g' → ∀ (j : Nat) (k : FaucetHandler),
      (w.handlers.set i g')[j]? = some k → w.GoesOn j k := by
    intro g' hgoes j k hk
    rcases getElem?_set_cases hk with ⟨rfl, rfl⟩ | ⟨-, hk⟩
    · exact hgoes
    · exact goesOn_self hk
  rcases w.resume_cases faucet i with
    ⟨recipient, amount, hget, hresume⟩ | ⟨recipient, tx, hget, hresume⟩ |
    ⟨recipient, tx, hash, hget, hresume⟩ | hresume
  · rw [hresume]
    refine h.goes_on rfl (Nat.le_refl _) (hset _ ?_)
    rcases sign_cases faucet w.rpc recipient amount with ⟨tx, hsign, -⟩ | hsign
    · rw [hsign]
      exact .inr ⟨_, hget, rfl, fun _ hin => hin⟩
    · rw [hsign]
      exact .inl ⟨rfl, rfl⟩
  · rw [hresume]
    exact h.goes_on rfl (Nat.le_refl _) (hset _ (.inr ⟨_, hget, rfl, fun _ hin => hin⟩))
  · rw [hresume]
    exact h.records hget
  · rw [hresume]
    exact h

theorem Spaced.step (h : w.Spaced faucet) (action : FaucetAction)
    (halone : w.PassesAlone faucet action) : (w.step faucet action).Spaced faucet := by
  have hsame : ∀ (j : Nat) (g : FaucetHandler), w.handlers[j]? = some g → w.GoesOn j g :=
    fun _ _ => goesOn_self
  cases action with
  | request address amount =>
    simp only [FaucetSystem.step]
    rcases check_cases faucet w.cooldowns w.now address amount with
      ⟨answer, hcheck⟩ | ⟨recipient, units, hcheck, hcooldown⟩
    · refine h.goes_on rfl (Nat.le_refl _) ?_
      intro j g hg
      rcases getElem?_snoc_cases hg with ⟨-, rfl⟩ | hg
      · rw [hcheck]
        exact .inl ⟨rfl, rfl⟩
      · exact hsame j g hg
    · rw [hcheck]
      exact h.passes hcooldown (halone recipient (by rw [hcheck]; rfl))
  | resume i => exact h.resume i
  | tick nanoseconds => exact h.goes_on rfl (Nat.le_add_right ..) hsame
  | services_ingest tx => exact h.goes_on rfl (Nat.le_refl _) hsame
  | testnet_ingest tx => exact h.goes_on rfl (Nat.le_refl _) hsame
  | store block => exact h.goes_on rfl (Nat.le_refl _) hsame

/-- In every run whose requests pass their checks alone, the drips to one recipient are recorded
at least a cooldown apart. -/
theorem cooldown_held_in_every_run (faucet : FaucetState) (rpc : RpcState)
    (actions : List FaucetAction)
    (halone : (start rpc).RunMeets faucet (PassesAlone faucet) actions)
    (before : List FaucetAction) (hbefore : before <+: actions) :
    ((start rpc).run faucet before).CooldownHeld faucet :=
  (run_invariant (fun _ action hw hmeets => hw.step action hmeets) (spaced_start faucet rpc) halone
    hbefore).held

/-! ## What follows when a request is not alone -/

/-- Two requests on their way to one recipient are recorded at once when their handlers go on. -/
theorem not_cooldownHeld_of_in_flight (hsigns : ∀ message, faucet.sign message ≠ none)
    (hcooldown : 0 < cooldown faucet) {i j : Nat} (hij : i ≠ j) {recipient : Address}
    (hi : w.handlers[i]?.bind FaucetHandler.in_flight = some recipient)
    (hj : w.handlers[j]?.bind FaucetHandler.in_flight = some recipient) :
    ¬ (w.run faucet [.resume i, .resume i, .resume i, .resume j, .resume j, .resume j]).CooldownHeld
      faucet := by
  have hothers : ∀ (v : FaucetSystem) (k l : Nat), k ≠ l →
      (((v.resume faucet k).resume faucet k).resume faucet k).handlers[l]? = v.handlers[l]? := by
    intro v k l hkl
    rw [(resume_waits faucet _ k).2 l hkl, (resume_waits faucet _ k).2 l hkl,
      (resume_waits faucet v k).2 l hkl]
  have hnow : ∀ v : FaucetSystem, (v.resume faucet i).now = v.now :=
    fun v => (v.resume_waits faucet i).1
  have hfirst := recorded_of_resumed faucet hsigns hi
  rw [← hothers _ j i (Ne.symm hij)] at hfirst
  rw [← hothers w i j hij] at hj
  have hsecond := recorded_of_resumed faucet hsigns hj
  rw [hnow, hnow, hnow] at hsecond
  intro hheld
  rcases hheld i j recipient w.now w.now hfirst hsecond hij with hapart | hapart
  · omega
  · omega

/-- The other way round: when a request passes its checks while another one for its recipient is
on its way, both are recorded at once when their handlers go on. -/
theorem drips_close_when_not_alone (faucet : FaucetState) (rpc : RpcState)
    (hsigns : ∀ message, faucet.sign message ≠ none) (hcooldown : 0 < cooldown faucet)
    (before : List FaucetAction) (address amount : String)
    (hshared : ¬ ((start rpc).run faucet before).PassesAlone faucet (.request address amount)) :
    ∃ i j, ¬ ((start rpc).run faucet (before ++ .request address amount ::
      [.resume i, .resume i, .resume i, .resume j, .resume j, .resume j])).CooldownHeld faucet := by
  generalize hw : (start rpc).run faucet before = w at hshared
  unfold PassesAlone at hshared
  push Not at hshared
  obtain ⟨recipient, hin, h, hmem, hother⟩ := hshared
  obtain ⟨i, hi⟩ := List.mem_iff_getElem?.mp hmem
  have hlt : i < w.handlers.length := (List.getElem?_eq_some_iff.mp hi).1
  -- The other request and the new one, after the check.
  have hfirst : (w.step faucet (.request address amount)).handlers[i]?.bind
      FaucetHandler.in_flight = some recipient := by
    simp only [FaucetSystem.step]
    rw [List.getElem?_append_left hlt, hi]
    exact hother
  have hsecond : (w.step faucet (.request address amount)).handlers[w.handlers.length]?.bind
      FaucetHandler.in_flight = some recipient := by
    simp only [FaucetSystem.step]
    rw [List.getElem?_concat_length]
    exact hin
  have hclose := not_cooldownHeld_of_in_flight hsigns hcooldown (Nat.ne_of_lt hlt) hfirst hsecond
  refine ⟨i, w.handlers.length, ?_⟩
  unfold run at hw hclose ⊢
  rwa [List.foldl_append, hw]

end FaucetSystem

end Pemrix

/-! ## Two requests for one recipient -/

namespace Pemrix.Drips

open Concrete (addr)
open FaucetSystem

/-- Both requests are checked before either drip is recorded. -/
theorem two_drips_in_one_cooldown :
    let text := (addr 9).to_string
    let w := (start (.from_genesis accounts)).run faucet
      [.request text "5", .request text "5", .resume 0, .resume 1, .resume 0, .resume 1, .resume 0,
        .tick 1000, .resume 1]
    w.handlers.map FaucetHandler.record = [some (addr 9, 0), some (addr 9, 1000)] ∧
      cooldown faucet = 60 * 10 ^ 9 ∧ ¬ w.CooldownHeld faucet := by
  intro text w
  have hrecord : w.handlers.map FaucetHandler.record =
      [some (addr 9, 0), some (addr 9, 1000)] := by decide +kernel
  refine ⟨hrecord, rfl, ?_⟩
  intro hheld
  have hget := getElem?_bind_of_map_eq hrecord
  have hapart := hheld 0 1 (addr 9) 0 1000 (hget 0) (hget 1) (by decide)
  have hcooldown : cooldown faucet = 60 * 10 ^ 9 := rfl
  omega

/-- Two requests one after the other, a minute apart. -/
theorem two_drips_a_minute_apart :
    ((start (.from_genesis accounts)).run faucet
      (request 9 0 ++ .tick (60 * 10 ^ 9) :: request 9 1)).CooldownHeld faucet := by
  refine cooldown_held_in_every_run faucet (.from_genesis accounts) _ ?_ _ (List.prefix_refl _)
  decide +kernel

end Pemrix.Drips
