import Mathlib.Data.List.Infix

/-!
# Radix trees as pointer structures

A tree over nodes `ν` whose edges carry letters `β`. The edge relation is one partial function `kid`
on places: the place `none` is the root pointer, and the place `some (a, b)` is the slot of the node
`a` for the letter `b`. Every node has the word on the way to it, `path`, and the word at which its
slots begin, `stop`; in between lie the letters a node skips.

`WF` says that the places in use spell the paths of the nodes they hold, and that every live node has
exactly one place. It determines where a word leads: a live node whose path is a prefix of a word lies
above every node without slots whose path is one too (`WF.below`).

Three changes keep it, and every update of such a tree is made of them: a node gets a new child
(`add`), a new node is put between a place and the node there (`wrap`), a new node takes over the
place and the children of an old one (`copy`).
-/

namespace Proteus

open Function

/-- A radix tree given by its pointers. -/
structure Radix (ν β : Type*) where
  kid : Option (ν × β) → Option ν
  live : ν → Prop
  path : ν → List β
  stop : ν → List β

namespace Radix

variable {ν β : Type*}

/-- The word that leads to a place. -/
def spell (T : Radix ν β) : Option (ν × β) → List β
  | none => []
  | some (a, b) => T.stop a ++ [b]

/-- The places in use, the live nodes and their paths agree. -/
structure WF (T : Radix ν β) : Prop where
  source : ∀ {a b c}, T.kid (some (a, b)) = some c → T.live a
  target : ∀ {e c}, T.kid e = some c → T.live c
  path_eq : ∀ {e c}, T.kid e = some c → T.path c = T.spell e
  placed : ∀ {c}, T.live c → ∃ e, T.kid e = some c
  single : ∀ {e e' c}, T.kid e = some c → T.kid e' = some c → e = e'
  path_stop : ∀ {a}, T.live a → T.path a <+: T.stop a

/-- The node `c` is reached from `a`. -/
inductive Below (T : Radix ν β) : ν → ν → Prop
  | refl (a : ν) : Below T a a
  | kid {a a' c : ν} {b : β} (h : T.kid (some (a, b)) = some a') (hb : Below T a' c) : Below T a c

theorem Below.trans {T : Radix ν β} {a c d : ν} (h : T.Below a c) (h' : T.Below c d) : T.Below a d := by
  induction h with
  | refl => exact h'
  | kid hk _ ih => exact .kid hk (ih h')

variable {T : Radix ν β} {b : β} {e : Option (ν × β)}

namespace WF

variable {a c d : ν} {word : List β}

section

variable (h : T.WF) (hk : T.kid (some (a, b)) = some c)
include h hk

theorem path_kid : T.path c = T.stop a ++ [b] :=
  h.path_eq hk

/-- Paths grow along an edge. -/
theorem path_isPrefix_kid : T.path a <+: T.path c := by
  rw [h.path_kid hk]
  exact (h.path_stop (h.source hk)).trans (List.prefix_append _ _)

theorem length_lt_kid : (T.path a).length < (T.path c).length := by
  have := (h.path_stop (h.source hk)).length_le
  rw [h.path_kid hk, List.length_append, List.length_singleton]
  omega

theorem kid_ne : c ≠ a := by
  intro hc
  have := h.length_lt_kid hk
  rw [hc] at this
  exact lt_irrefl _ this

end

variable {T' : Radix ν β}

section

variable (h : T.WF)
include h

theorem path_isPrefix (hb : T.Below a c) : T.path a <+: T.path c := by
  induction hb with
  | refl => exact List.prefix_refl _
  | kid hk _ ih => exact (h.path_isPrefix_kid hk).trans ih

/-- Every live node is reached from the root. -/
theorem root_below (hc : T.live c) : ∃ r, T.kid none = some r ∧ T.Below r c := by
  -- the place of `c` is the root, or belongs to a node with a shorter path
  obtain ⟨m, hm⟩ : ∃ m, (T.path c).length = m := ⟨_, rfl⟩
  induction m using Nat.strong_induction_on generalizing c with
  | _ m ih =>
    obtain ⟨e, he⟩ := h.placed hc
    cases e with
    | none => exact ⟨c, he, .refl c⟩
    | some p =>
      have hlt := h.length_lt_kid (a := p.1) (b := p.2) he
      obtain ⟨r, hr, hb⟩ := ih _ (hm ▸ hlt) (h.source (a := p.1) (b := p.2) he) rfl
      exact ⟨r, hr, hb.trans (.kid (a := p.1) (b := p.2) he (.refl c))⟩

section

variable (ha : T.live a) (hc : T.live c) (hleaf : ∀ b, T.kid (some (c, b)) = none)
    (hpa : T.path a <+: word) (hpc : T.path c <+: word)
include ha hc hleaf hpa hpc

/-- **Where a word leads.** A live node on the way of a word lies above the node without slots at
which the word ends. -/
theorem below : T.Below a c := by
  obtain ⟨m, hm⟩ : ∃ m, (T.path a).length = m := ⟨_, rfl⟩
  induction m using Nat.strong_induction_on generalizing a with
  | _ m ih =>
    obtain ⟨e, he⟩ := h.placed ha
    cases e with
    | none =>
      obtain ⟨r, hr, hb⟩ := h.root_below hc
      rw [he] at hr
      cases hr
      exact hb
    | some p =>
      obtain ⟨a', b⟩ := p
      have hup := ih _ (hm ▸ h.length_lt_kid he) (h.source he) ((h.path_isPrefix_kid he).trans hpa) rfl
      cases hup with
      | refl => simp [hleaf] at he
      | @kid _ a'' _ b' hk hb =>
        -- both edges leave `a'` along the word, so that they are one
        have h₁ := hpa
        have h₂ := (h.path_isPrefix hb).trans hpc
        rw [h.path_kid he] at h₁
        rw [h.path_kid hk] at h₂
        have heq := (List.prefix_of_prefix_length_le h₁ h₂ (by simp)).eq_of_length (by simp)
        obtain ⟨-, hbb⟩ := List.append_inj' heq rfl
        cases hbb
        rw [he] at hk
        cases hk
        exact hb

/-- The next edge on the way of a word. -/
theorem next (hne : a ≠ c) : ∃ b a', T.kid (some (a, b)) = some a' ∧ T.stop a ++ [b] <+: word := by
  cases h.below ha hc hleaf hpa hpc with
  | refl => exact absurd rfl hne
  | kid hk hb => exact ⟨_, _, hk, h.path_kid hk ▸ (h.path_isPrefix hb).trans hpc⟩

end

/-- A node that is not live is not the child of any, and has no children. -/
theorem no_place (hc : ¬T.live c) (e : Option (ν × β)) : T.kid e ≠ some c :=
  fun hk => hc (h.target hk)

theorem no_kid (ha : ¬T.live a) (b : β) : T.kid (some (a, b)) = none := by
  cases hk : T.kid (some (a, b)) with
  | none => rfl
  | some c => exact absurd (h.source hk) ha

theorem ne_of_kid (ha : ¬T.live a) (hk : T.kid e = some c) (b : β) : e ≠ some (a, b) := by
  rintro rfl
  exact ha (h.source hk)

/-- The word of a place in use is that of a live node. -/
theorem spell_congr (hstop : ∀ a, T.live a → T'.stop a = T.stop a)
    (hk : T.kid e = some c) : T'.spell e = T.spell e := by
  cases e with
  | none => rfl
  | some p => simp only [spell, hstop _ (h.source (a := p.1) (b := p.2) hk)]

/-- Only the words of live nodes matter. -/
theorem congr (hkid : T'.kid = T.kid) (hnode : ∀ a, (T'.live a ↔ T.live a) ∧
      (T.live a → T'.path a = T.path a ∧ T'.stop a = T.stop a)) : T'.WF where
  source hk := (hnode _).1.2 (h.source (hkid ▸ hk))
  target hk := (hnode _).1.2 (h.target (hkid ▸ hk))
  path_eq {e c} hk := by
    rw [hkid] at hk
    rw [((hnode _).2 (h.target hk)).1, h.path_eq hk]
    exact (h.spell_congr (fun a ha => ((hnode a).2 ha).2) hk).symm
  placed hc := hkid ▸ h.placed ((hnode _).1.1 hc)
  single hk hk' := h.single (hkid ▸ hk) (hkid ▸ hk')
  path_stop ha := by
    obtain ⟨hpath, hstop⟩ := (hnode _).2 ((hnode _).1.1 ha)
    rw [hpath, hstop]
    exact h.path_stop ((hnode _).1.1 ha)

end

end WF

variable [DecidableEq ν] [DecidableEq β]

/-- The node `n` becomes a child of `a`. -/
def add (T : Radix ν β) (a : ν) (b : β) (n : ν) (stop : List β) : Radix ν β where
  kid := update T.kid (some (a, b)) (some n)
  live c := c = n ∨ T.live c
  path := update T.path n (T.stop a ++ [b])
  stop := update T.stop n stop

/-- The node `n` is put into the place `e` of the node `a`, which becomes its child for `b`. -/
def wrap (T : Radix ν β) (e : Option (ν × β)) (a n : ν) (skip : List β) (b : β) : Radix ν β where
  kid := update (update T.kid e (some n)) (some (n, b)) (some a)
  live c := c = n ∨ T.live c
  path := update (update T.path n (T.path a)) a (T.path a ++ skip ++ [b])
  stop := update T.stop n (T.path a ++ skip)

attribute [local simp] Radix.wrap Radix.add

/-- The node `n` takes over the place `e` and the children of the node `a`. -/
def copy (T : Radix ν β) (e : Option (ν × β)) (a n : ν) : Radix ν β where
  kid := update (fun
    | none => T.kid none
    | some (c, b) =>
      if c = n then T.kid (some (a, b)) else if c = a then none else T.kid (some (c, b))) e (some n)
  live c := c = n ∨ c ≠ a ∧ T.live c
  path := update T.path n (T.path a)
  stop := update T.stop n (T.stop a)

attribute [local simp] Radix.copy

section

variable (T : Radix ν β) (a n : ν) (b : β) (e : Option (ν × β)) (skip stop : List β)

@[simp] theorem add_kid : (T.add a b n stop).kid = update T.kid (some (a, b)) (some n) := rfl

@[simp] theorem wrap_kid : (T.wrap e a n skip b).kid =
    update (update T.kid e (some n)) (some (n, b)) (some a) := rfl

@[simp] theorem wrap_stop : (T.wrap e a n skip b).stop = update T.stop n (T.path a ++ skip) := rfl

end

namespace WF

variable {a n : ν}

theorem add (h : T.WF) (stop : List β) (ha : T.live a) (hfree : T.kid (some (a, b)) = none)
    (hn : ¬T.live n) (hstop : T.stop a ++ [b] <+: stop) : (T.add a b n stop).WF := by
  have hne : ∀ {c}, T.live c → c ≠ n := fun hc heq => hn (heq ▸ hc)
  -- the new place, or an old one
  have hcases : ∀ {e c}, (T.add a b n stop).kid e = some c →
      e = some (a, b) ∧ c = n ∨ T.kid e = some c := by
    intro e c hk
    by_cases he : e = some (a, b)
    · exact .inl ⟨he, by simpa [he, eq_comm] using hk⟩
    · exact .inr (by simpa [he] using hk)
  have hspell : ∀ {e c}, T.kid e = some c → (T.add a b n stop).spell e = T.spell e :=
    h.spell_congr fun c hc => by simp [hne hc]
  refine ⟨fun {a' b' c} hk => ?_, fun {e c} hk => ?_, fun {e c} hk => ?_, fun {c} hc => ?_,
    fun {e e' c} hk hk' => ?_, fun {c} hc => ?_⟩
  · rcases hcases hk with ⟨heq, -⟩ | hold
    · cases heq
      exact .inr ha
    · exact .inr (h.source hold)
  · rcases hcases hk with ⟨-, heq⟩ | hold
    · exact .inl heq
    · exact .inr (h.target hold)
  · rcases hcases hk with ⟨rfl, rfl⟩ | hold
    · simp [spell, hne ha]
    · rw [hspell hold, ← h.path_eq hold]
      simp [hne (h.target hold)]
  · rcases hc with rfl | hc
    · exact ⟨some (a, b), by simp⟩
    · obtain ⟨e, he⟩ := h.placed hc
      have hold : e ≠ some (a, b) := by
        intro heq
        rw [heq, hfree] at he
        cases he
      exact ⟨e, by simpa [hold] using he⟩
  · rcases hcases hk with ⟨he, hc⟩ | hold
    · rcases hcases hk' with ⟨he', -⟩ | hold'
      · rw [he, he']
      · exact absurd (hc ▸ hold') (h.no_place hn _)
    · rcases hcases hk' with ⟨-, hc⟩ | hold'
      · exact absurd (hc ▸ hold) (h.no_place hn _)
      · exact h.single hold hold'
  · rcases hc with rfl | hc
    · simpa using hstop
    · simpa [hne hc] using h.path_stop hc

theorem wrap (h : T.WF) (skip : List β) (he : T.kid e = some a) (hn : ¬T.live n)
    (hstop : T.path a ++ skip ++ [b] <+: T.stop a) : (T.wrap e a n skip b).WF := by
  have ha := h.target he
  have hne : ∀ {c}, T.live c → c ≠ n := fun hc heq => hn (heq ▸ hc)
  -- the place of the new node, the place of the old one below it, or a place that has not changed
  have hcases : ∀ {e' c}, (T.wrap e a n skip b).kid e' = some c →
      e' = e ∧ c = n ∨ e' = some (n, b) ∧ c = a ∨ c ≠ a ∧ T.kid e' = some c := by
    intro e' c hk
    by_cases h1 : e' = some (n, b)
    · exact .inr (.inl ⟨h1, by simpa [h1, eq_comm] using hk⟩)
    by_cases h2 : e' = e
    · subst h2
      exact .inl ⟨rfl, by simpa [h1, eq_comm] using hk⟩
    · have hold : T.kid e' = some c := by simpa [h1, h2] using hk
      exact .inr (.inr ⟨fun hc => h2 (h.single (hc ▸ hold) he), hold⟩)
  have hspell : ∀ {e' c}, T.kid e' = some c → (T.wrap e a n skip b).spell e' = T.spell e' :=
    h.spell_congr fun c hc => by simp [hne hc]
  refine ⟨fun {a' b' c} hk => ?_, fun {e' c} hk => ?_, fun {e' c} hk => ?_, fun {c} hc => ?_,
    fun {e₁ e₂ c} hk hk' => ?_, fun {c} hc => ?_⟩
  · rcases hcases hk with ⟨heq, -⟩ | ⟨heq, -⟩ | ⟨-, hold⟩
    · exact .inr (h.source (heq ▸ he))
    · cases heq
      exact .inl rfl
    · exact .inr (h.source hold)
  · rcases hcases hk with ⟨-, heq⟩ | ⟨-, heq⟩ | ⟨-, hold⟩
    · exact .inl heq
    · exact .inr (heq ▸ ha)
    · exact .inr (h.target hold)
  · rcases hcases hk with ⟨rfl, rfl⟩ | ⟨rfl, rfl⟩ | ⟨hca, hold⟩
    · rw [hspell he, ← h.path_eq he]
      simp [(hne ha).symm]
    · simp [spell]
    · rw [hspell hold, ← h.path_eq hold]
      simp [hca, hne (h.target hold)]
  · rcases hc with rfl | hc
    · exact ⟨e, by simp [h.ne_of_kid hn he]⟩
    · by_cases hca : c = a
      · exact ⟨some (n, b), by simp [hca]⟩
      · obtain ⟨e', he'⟩ := h.placed hc
        have hold : e' ≠ e := by
          intro heq
          rw [heq, he] at he'
          exact hca (Option.some.inj he').symm
        exact ⟨e', by simpa [h.ne_of_kid hn he', hold] using he'⟩
  · rcases hcases hk with ⟨he₁, hc⟩ | ⟨he₁, hc⟩ | ⟨hca, hold⟩
    · rcases hcases hk' with ⟨he₂, -⟩ | ⟨-, hc'⟩ | ⟨-, hold'⟩
      · rw [he₁, he₂]
      · exact absurd (hc'.symm.trans hc) (hne ha)
      · exact absurd (hc ▸ hold') (h.no_place hn _)
    · rcases hcases hk' with ⟨-, hc'⟩ | ⟨he₂, -⟩ | ⟨hca, -⟩
      · exact absurd (hc.symm.trans hc') (hne ha)
      · rw [he₁, he₂]
      · exact absurd hc hca
    · rcases hcases hk' with ⟨-, hc'⟩ | ⟨-, hc'⟩ | ⟨-, hold'⟩
      · exact absurd (hc' ▸ hold) (h.no_place hn _)
      · exact absurd hc' hca
      · exact h.single hold hold'
  · rcases hc with rfl | hc
    · simp [(hne ha).symm]
    · by_cases hca : c = a
      · subst hca
        simpa [hne ha] using hstop
      · simpa [hne hc, hca] using h.path_stop hc

theorem copy (h : T.WF) (he : T.kid e = some a) (hn : ¬T.live n) : (T.copy e a n).WF := by
  have ha := h.target he
  have hne : ∀ {c}, T.live c → c ≠ n := fun hc heq => hn (heq ▸ hc)
  have hea : ∀ b, e ≠ some (a, b) := by
    rintro b rfl
    exact h.kid_ne he rfl
  have hca : ∀ {e' c}, T.kid e' = some c → e' ≠ e → c ≠ a := fun hk hee hc =>
    hee (h.single (hc ▸ hk) he)
  -- the place of the new node, one of its children, or a place that has not changed
  have hcases : ∀ {e' c}, (T.copy e a n).kid e' = some c → e' = e ∧ c = n ∨
      (∃ b, e' = some (n, b) ∧ T.kid (some (a, b)) = some c ∧ c ≠ a) ∨
      (∀ b, e' ≠ some (a, b)) ∧ T.kid e' = some c ∧ c ≠ a := by
    intro e' c hk
    by_cases h2 : e' = e
    · subst h2
      exact .inl ⟨rfl, by simpa [eq_comm] using hk⟩
    simp only [Radix.copy, update_of_ne h2] at hk
    cases e' with
    | none => exact .inr (.inr ⟨by simp, hk, hca hk h2⟩)
    | some p =>
      obtain ⟨d, b⟩ := p
      by_cases hd : d = n
      · have hold : T.kid (some (a, b)) = some c := by simpa [hd] using hk
        exact .inr (.inl ⟨b, by rw [hd], hold, hca hold (hea b).symm⟩)
      by_cases hda : d = a
      · simp [hda, hne ha] at hk
      · have hold : T.kid (some (d, b)) = some c := by simpa [hd, hda] using hk
        exact .inr (.inr ⟨by simp [hda], hold, hca hold h2⟩)
  have hspell : ∀ {e' c}, T.kid e' = some c → (T.copy e a n).spell e' = T.spell e' :=
    h.spell_congr fun c hc => by simp [hne hc]
  refine ⟨fun {a' b' c} hk => ?_, fun {e' c} hk => ?_, fun {e' c} hk => ?_, fun {c} hc => ?_,
    fun {e₁ e₂ c} hk hk' => ?_, fun {c} hc => ?_⟩
  · rcases hcases hk with ⟨heq, -⟩ | ⟨b, heq, -⟩ | ⟨hna, hold, -⟩
    · exact .inr ⟨fun hc => hea b' (by rw [← heq, hc]), h.source (heq ▸ he)⟩
    · cases heq
      exact .inl rfl
    · exact .inr ⟨fun hc => hna b' (by rw [hc]), h.source hold⟩
  · rcases hcases hk with ⟨-, heq⟩ | ⟨b, -, hold, hc⟩ | ⟨-, hold, hc⟩
    · exact .inl heq
    · exact .inr ⟨hc, h.target hold⟩
    · exact .inr ⟨hc, h.target hold⟩
  · rcases hcases hk with ⟨rfl, rfl⟩ | ⟨b, rfl, hold, hc⟩ | ⟨-, hold, hc⟩
    · rw [hspell he, ← h.path_eq he]
      simp
    · simp [spell, hne (h.target hold), h.path_kid hold]
    · rw [hspell hold, ← h.path_eq hold]
      simp [hne (h.target hold)]
  · rcases hc with rfl | ⟨hc, hlive⟩
    · exact ⟨e, by simp⟩
    · obtain ⟨e', he'⟩ := h.placed hlive
      have hold : e' ≠ e := by
        intro heq
        rw [heq, he] at he'
        exact hc (Option.some.inj he').symm
      cases e' with
      | none => exact ⟨none, by simpa [hold] using he'⟩
      | some p =>
        obtain ⟨d, b⟩ := p
        by_cases hda : d = a
        · exact ⟨some (n, b), by simpa [(h.ne_of_kid hn he _).symm, hda] using he'⟩
        · have hdn : d ≠ n := hne (h.source he')
          exact ⟨some (d, b), by simpa [hold, hdn, hda] using he'⟩
  · rcases hcases hk with ⟨he₁, hc⟩ | ⟨b₁, he₁, hold, hc⟩ | ⟨hna, hold, hc⟩
    · rcases hcases hk' with ⟨he₂, -⟩ | ⟨b₂, -, hold', -⟩ | ⟨-, hold', -⟩
      · rw [he₁, he₂]
      · exact absurd (hc ▸ hold') (h.no_place hn _)
      · exact absurd (hc ▸ hold') (h.no_place hn _)
    · rcases hcases hk' with ⟨-, hc'⟩ | ⟨b₂, he₂, hold', -⟩ | ⟨hna, hold', -⟩
      · exact absurd (hc' ▸ hold) (h.no_place hn _)
      · obtain ⟨-, hb⟩ := Prod.mk.inj (Option.some.inj (h.single hold hold'))
        rw [he₁, he₂, hb]
      · exact absurd (h.single hold' hold) (hna b₁)
    · rcases hcases hk' with ⟨-, hc'⟩ | ⟨b₂, he₂, hold', -⟩ | ⟨-, hold', -⟩
      · exact absurd (hc' ▸ hold) (h.no_place hn _)
      · exact absurd (h.single hold hold') (hna b₂)
      · exact h.single hold hold'
  · rcases hc with rfl | ⟨-, hlive⟩
    · simpa using h.path_stop ha
    · simpa [hne hlive] using h.path_stop hlive

end WF

end Radix

end Proteus
