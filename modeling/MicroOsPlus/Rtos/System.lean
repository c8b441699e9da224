import MicroOsPlus.Rtos.Lists
import MicroOsPlus.Run

/-!
# The system of lists

All the lists of the scheduler live in one heap and share its nodes: a thread's nodes move from
list to list. This module states what holds of all of them at once, over every run.

## The model

A system is a list `L` of lists, each a `ListKind` and a header. `SysInv L s cont` says that in
`s` each list holds the members `cont hd` (or, for a static list, still has a zero header with no
member), that no node is in two lists, and that a node in no list is detached.

A run is made of `SysStep`s: the primitive operations (`PrimStep`: each class's `link` of a
detached node, `unlink` of a node that is no header, the ready list's `unlink_head`, and changes
of the records that leave every pointer alone, as far as a relation `R` allows them), and the
loops `resume_one`, `resume_all` and `check_timestamp`, whose callbacks (`thread::resume`, the
nodes' `action ()`) are runs of primitive operations. Here `R` is arbitrary; `SystemQueues`
restricts it to the changes that keep the keys of the lists' members.

## What is proved

* `SysInv.replace`, `SysInv.unlink_cases`, `SysInv.unlinkHead_cases` — what an operation does to
  the lists, said once: which list it changes, and that it leaves the others alone.
* `SysInv.primStep` — every primitive operation keeps the invariant;
  `resumeOne_primRun`, `resumeAll_primRun`, `checkTimestamp_primRun` — the loops are runs of
  primitive operations.
* `system_wellFormed` — from lists freshly made and all other nodes detached, in every state a
  run reaches, every list is a zero static header or a circular doubly linked list through its
  header (`ListAt.circular`: following `next` from the header comes back to it after exactly
  `size + 1` steps, and `prev` likewise, and `next` and `prev` are inverse on the header and the
  members), no node is in two lists, and a node in no list is detached.
* `unlink_idempotent` — in every state a run reaches, `unlink ()` of a node that is no header
  returns, and a second `unlink ()` changes nothing.
-/

namespace MicroOsPlus.Rtos

open Relation

/-! ### Walking a list -/

/-- Follow the pointer `f` from `p`, `i` times; `none` at `nullptr`. -/
def follow (f : Ptr → Option Ptr) : ℕ → Ptr → Option Ptr
  | 0, p => some p
  | i + 1, p => (f p).bind (follow f i)

theorem follow_chain {f : Ptr → Option Ptr} : ∀ {l : List Ptr} {a : Ptr},
    (a :: l).Chain' (fun u v => f u = some v) → ∀ i ≤ l.length, follow f i a = (a :: l)[i]?
  | _, _, _, 0, _ => by simp [follow]
  | b :: l, a, h, i + 1, hi => by
    rw [List.chain'_cons] at h
    simp only [follow, h.1, Option.some_bind, List.getElem?_cons_succ]
    exact follow_chain h.2 i (by simpa using hi)

theorem chain'_exists_succ {R : Ptr → Ptr → Prop} : ∀ {l : List Ptr}, l.Chain' R →
    ∀ p ∈ l.dropLast, ∃ q, R p q
  | [], _, _, hp => by simp at hp
  | [_], _, _, hp => by simp at hp
  | _ :: b :: _, h, p, hp => by
    rw [List.chain'_cons] at h
    rw [List.dropLast_cons₂, List.mem_cons] at hp
    rcases hp with rfl | hp
    · exact ⟨b, h.1⟩
    · exact chain'_exists_succ h.2 p hp

variable {s : State} {hd : Ptr} {xs : List Ptr}

/-- A circular doubly linked list through `hd` with `size` members: following `next` from the
header comes back to it after exactly `size + 1` steps, `prev` likewise, and on the header and
the members `x->next->prev == x` and `x->prev->next == x`. -/
def Circular (s : State) (hd : Ptr) (size : ℕ) (nodes : List Ptr) : Prop :=
  follow s.next (size + 1) hd = some hd ∧
    (∀ i, 0 < i → i ≤ size → follow s.next i hd ≠ some hd) ∧
    follow s.prev (size + 1) hd = some hd ∧
    (∀ i, 0 < i → i ≤ size → follow s.prev i hd ≠ some hd) ∧
    ∀ p ∈ nodes, (∃ q, s.next p = some q ∧ s.prev q = some p) ∧
      (∃ q, s.prev p = some q ∧ s.next q = some p)

/-- **A list, walked.** A list is circular through its header. -/
theorem ListAt.circular (h : ListAt s hd xs) : Circular s hd xs.length (hd :: xs) := by
  have hnext : (hd :: (xs ++ [hd])).Chain' fun u v => s.next u = some v :=
    h.chain.imp fun _ _ hab => hab.1
  have hrev : (hd :: (xs.reverse ++ [hd])).Chain' (flip (Adj s)) := by
    have := List.chain'_reverse.2 h.chain
    simpa using this
  have hprev : (hd :: (xs.reverse ++ [hd])).Chain' fun u v => s.prev u = some v :=
    hrev.imp fun _ _ hab => hab.2
  -- a member is never the header
  have hne : ∀ l : List Ptr, (∀ y ∈ l, y ≠ hd) → ∀ i, 0 < i → i ≤ l.length →
      (hd :: (l ++ [hd]))[i]? ≠ some hd := by
    intro l hl i hi hil e
    obtain ⟨j, rfl⟩ : ∃ j, i = j + 1 := ⟨i - 1, by omega⟩
    rw [List.getElem?_cons_succ, List.getElem?_append_left (by omega)] at e
    exact hl _ (List.getElem?_mem e) rfl
  have hmem : ∀ y ∈ xs, y ≠ hd := fun _ => h.ne_hd
  refine ⟨?_, fun i hi hil => ?_, ?_, fun i hi hil => ?_, fun p hp => ⟨?_, ?_⟩⟩
  · rw [follow_chain hnext _ (by simp)]; simp
  · rw [follow_chain hnext _ (by simp; omega)]
    exact hne xs hmem i hi hil
  · rw [follow_chain hprev _ (by simp)]; simp
  · rw [follow_chain hprev _ (by simp; omega)]
    exact hne xs.reverse (fun y hy => hmem y (List.mem_reverse.1 hy)) i hi (by simpa using hil)
  · obtain ⟨q, hq⟩ := chain'_exists_succ h.chain p (by rwa [ListAt.ring_dropLast])
    exact ⟨q, hq⟩
  · obtain ⟨q, hq⟩ := chain'_exists_succ hrev p (by rw [ListAt.ring_dropLast]; simpa using hp)
    exact ⟨q, hq.2, hq.1⟩

/-! ### The invariant -/

/-- The system invariant: in `s`, each list of `L` holds the members `cont hd`, or is a static list
whose header is still zero; no node is in two lists; a node in no list is detached. -/
structure SysInv (L : List (ListKind × Ptr)) (s : State) (cont : Ptr → List Ptr) : Prop where
  /-- Each list is a list, or a static list's header still zero. -/
  lists : ∀ k hd, (k, hd) ∈ L →
    ListAt s hd (cont hd) ∨ (k.isStatic = true ∧ Detached s hd ∧ cont hd = [])
  /-- No two lists share a header. -/
  headers : (L.map Prod.snd).Nodup
  /-- No node is in two lists. -/
  disjoint : ∀ hd₁ ∈ L.map Prod.snd, ∀ hd₂ ∈ L.map Prod.snd, hd₁ ≠ hd₂ →
    ∀ p ∈ hd₁ :: cont hd₁, p ∉ hd₂ :: cont hd₂
  /-- A node in no list is detached. -/
  detached : ∀ p, (∀ hd ∈ L.map Prod.snd, p ∉ hd :: cont hd) → Detached s p

variable {L : List (ListKind × Ptr)} {cont : Ptr → List Ptr} {s' : State}

namespace SysInv

theorem staticListAt (h : SysInv L s cont) {k : ListKind} (hk : (k, hd) ∈ L) :
    StaticListAt s hd (cont hd) :=
  (h.lists k hd hk).imp id fun hz => ⟨hz.2.1, hz.2.2⟩

/-- A constructed list is a list. -/
theorem listAt (h : SysInv L s cont) {k : ListKind} (hk : (k, hd) ∈ L) (hks : k.isStatic = false) :
    ListAt s hd (cont hd) :=
  (h.lists k hd hk).resolve_right fun hz => by simp [hks] at hz

theorem not_mem_other (h : SysInv L s cont) {hd' p : Ptr} (hd_mem : hd ∈ L.map Prod.snd)
    (hd'_mem : hd' ∈ L.map Prod.snd) (hne : hd' ≠ hd) (hp : p ∈ hd :: cont hd) :
    p ∉ hd' :: cont hd' :=
  h.disjoint hd hd_mem hd' hd'_mem hne.symm p hp

theorem not_mem_of_detached (h : SysInv L s cont) {n : Ptr} (hn : Detached s n)
    (hnH : n ∉ L.map Prod.snd) : ∀ hd ∈ L.map Prod.snd, n ∉ hd :: cont hd := by
  intro hd hdH hm
  obtain ⟨⟨k, hd'⟩, hk, rfl⟩ := List.mem_map.1 hdH
  rcases List.mem_cons.1 hm with rfl | hm
  · exact hnH hdH
  · exact (h.staticListAt hk).elim (fun hl => hl.next_ne_none (List.mem_cons_of_mem _ hm) hn.2)
      fun hz => by simp [hz.2] at hm

theorem kind_unique (h : SysInv L s cont) {k k' : ListKind} (hk : (k, hd) ∈ L)
    (hk' : (k', hd) ∈ L) : k = k' :=
  (Prod.ext_iff.1 (List.inj_on_of_nodup_map h.headers hk hk' rfl)).1

/-- What writes only the pointers of the list at `hd₁` and of nodes in no list leaves the
pointers of every other list alone. -/
theorem agreeOn_other (h : SysInv L s cont) {hd₁ : Ptr} (hdH : hd ∈ L.map Prod.snd)
    (hd₁H : hd₁ ∈ L.map Prod.snd) (hne : hd₁ ≠ hd) {e : List Ptr}
    (he : ∀ p ∈ e, ∀ hd' ∈ L.map Prod.snd, p ∉ hd' :: cont hd')
    (hag : LinksAgreeOff (e ++ hd₁ :: cont hd₁) s s') : LinksAgreeOn (hd :: cont hd) s s' :=
  fun p hp => hag p fun hpw => (List.mem_append.1 hpw).elim (fun hpe => he p hpe hd hdH hp)
    fun hpw => h.not_mem_other hd₁H hdH (Ne.symm hne) hpw hp

/-- **The one lemma every operation uses.** The list at `hd` now holds `l`, made of its old
members and of the nodes `e`, which were in no list; only the pointers of `e`, of the header and
of the old members were written, and those of them not in `l` are detached. Then the invariant
holds, with `l` for the list at `hd`. -/
theorem replace (h : SysInv L s cont) {k : ListKind} (hk : (k, hd) ∈ L) {e l : List Ptr}
    (he : ∀ p ∈ e, ∀ hd' ∈ L.map Prod.snd, p ∉ hd' :: cont hd')
    (hl : ListAt s' hd l) (hsub : ∀ p ∈ l, p ∈ cont hd ∨ p ∈ e)
    (hag : LinksAgreeOff (e ++ hd :: cont hd) s s')
    (hdet : ∀ p ∈ e ++ cont hd, p ∉ l → Detached s' p) :
    SysInv L s' (Function.update cont hd l) := by
  have hdH : hd ∈ L.map Prod.snd := List.mem_map_of_mem Prod.snd hk
  -- the pointers of the other lists were not written
  have hout : ∀ hd' ∈ L.map Prod.snd, hd' ≠ hd → LinksAgreeOn (hd' :: cont hd') s s' :=
    fun hd' hd'H hne => h.agreeOn_other hd'H hdH (Ne.symm hne) he hag
  -- the nodes of the list at `hd` are in no other list
  have hnew : ∀ hd' ∈ L.map Prod.snd, hd' ≠ hd → ∀ p ∈ hd :: l, p ∉ hd' :: cont hd' := by
    intro hd' hd'H hne p hp
    rcases List.mem_cons.1 hp with rfl | hp
    · exact h.not_mem_other hdH hd'H hne (List.mem_cons_self _ _)
    · rcases hsub p hp with hp | hp
      · exact h.not_mem_other hdH hd'H hne (List.mem_cons_of_mem _ hp)
      · exact he p hp hd' hd'H
  refine ⟨fun k' hd' hk' => ?_, h.headers, fun hd₁ h₁ hd₂ h₂ hne p hp => ?_, fun p hp => ?_⟩
  · by_cases hne : hd' = hd
    · subst hne
      exact Or.inl (by rwa [Function.update_same])
    rw [Function.update_noteq hne]
    have hd'H : hd' ∈ L.map Prod.snd := List.mem_map_of_mem Prod.snd hk'
    exact (h.lists k' hd' hk').imp (fun hl' => hl'.agreeOn (hout hd' hd'H hne))
      fun hz => ⟨hz.1, (hout hd' hd'H hne).detached hz.2.1 (List.mem_cons_self _ _), hz.2.2⟩
  · by_cases e₁ : hd₁ = hd
    · subst e₁
      rw [Function.update_same] at hp
      rw [Function.update_noteq (Ne.symm hne)]
      exact hnew hd₂ h₂ (Ne.symm hne) p hp
    by_cases e₂ : hd₂ = hd
    · subst e₂
      rw [Function.update_noteq e₁] at hp
      rw [Function.update_same]
      exact fun hp' => hnew hd₁ h₁ e₁ p hp' hp
    rw [Function.update_noteq e₁] at hp
    rw [Function.update_noteq e₂]
    exact h.disjoint hd₁ h₁ hd₂ h₂ hne p hp
  · have hpl : p ∉ hd :: l := by simpa using hp hd hdH
    by_cases hpw : p ∈ e ++ hd :: cont hd
    · refine hdet p ?_ fun hm => hpl (List.mem_cons_of_mem _ hm)
      simp only [List.mem_append, List.mem_cons] at hpw ⊢
      rcases hpw with hpw | rfl | hpw
      · exact Or.inl hpw
      · exact absurd (List.mem_cons_self _ _) hpl
      · exact Or.inr hpw
    refine hag.detached (h.detached p fun hd' hd'H hm => ?_) hpw
    by_cases hne : hd' = hd
    · subst hne
      exact hpw (List.mem_append_right _ hm)
    · exact hp hd' hd'H (by rwa [Function.update_noteq hne])

theorem of_links (h : SysInv L s cont) (hn : s'.next = s.next) (hp : s'.prev = s.prev) :
    SysInv L s' cont := by
  have hag : ∀ ws : List Ptr, LinksAgreeOff ws s s' := fun _ q _ => ⟨by rw [hn], by rw [hp]⟩
  refine ⟨fun k hd hk => (h.lists k hd hk).imp (fun hl => hl.frame (hag []) (by simp))
    fun hz => ⟨hz.1, (hag []).detached hz.2.1 (by simp), hz.2.2⟩, h.headers, h.disjoint,
    fun p hp => (hag []).detached (h.detached p hp) (by simp)⟩

/-- A node that is no header is a member of one of the lists, or is in none and detached. -/
theorem mem_or_detached (h : SysInv L s cont) {x : Ptr} (hxH : x ∉ L.map Prod.snd) :
    (∃ k hd ys zs, (k, hd) ∈ L ∧ cont hd = ys ++ x :: zs ∧ ListAt s hd (ys ++ x :: zs)) ∨
    (Detached s x ∧ ∀ hd ∈ L.map Prod.snd, x ∉ cont hd) := by
  by_cases hin : ∃ hd ∈ L.map Prod.snd, x ∈ cont hd
  · obtain ⟨hd, hdH, hx⟩ := hin
    obtain ⟨⟨k, _⟩, hk, rfl⟩ := List.mem_map.1 hdH
    have hl := (h.staticListAt hk).elim id fun hz => by simp [hz.2] at hx
    obtain ⟨ys, zs, hc⟩ := List.append_of_mem hx
    exact Or.inl ⟨k, _, ys, zs, hk, hc, hc ▸ hl⟩
  · refine Or.inr ⟨h.detached x fun hd hdH hm => ?_, fun hd hdH hx => hin ⟨hd, hdH, hx⟩⟩
    rcases List.mem_cons.1 hm with rfl | hm
    · exact hxH hdH
    · exact hin ⟨hd, hdH, hm⟩

/-- What `unlink ()` of a node that is no header does: the node is the member of one list, which
it leaves, and only the pointers of that list change; or it is in no list, and nothing
changes. -/
theorem unlink_cases (h : SysInv L s cont) {x : Ptr} (hxH : x ∉ L.map Prod.snd)
    (hs : unlink x s = some s') :
    (∃ k hd ys zs, (k, hd) ∈ L ∧ cont hd = ys ++ x :: zs ∧ ListAt s' hd (ys ++ zs) ∧
      Detached s' x ∧ LinksAgreeOff (hd :: cont hd) s s') ∨
    (s' = s ∧ ∀ hd ∈ L.map Prod.snd, x ∉ cont hd) := by
  rcases h.mem_or_detached hxH with ⟨k, hd, ys, zs, hk, hc, hl⟩ | ⟨hdet, hout⟩
  · obtain ⟨s'', hs'', hl', hx', hag⟩ := hl.erase
    obtain rfl := Option.some.inj (hs.symm.trans hs'')
    exact Or.inl ⟨k, _, ys, zs, hk, hc, hl', hx', hc ▸ hag⟩
  · -- a node in no list is detached: `unlink` changes nothing
    rw [unlink_detached hdet, Option.some.injEq] at hs
    exact Or.inr ⟨hs.symm, hout⟩

/-- `unlink ()` of a node that is no header returns, never tripping its assertion, and leaves the
node detached. -/
theorem unlink_some (h : SysInv L s cont) {x : Ptr} (hxH : x ∉ L.map Prod.snd) :
    ∃ s', unlink x s = some s' ∧ Detached s' x := by
  rcases h.mem_or_detached hxH with ⟨_, _, _, _, -, -, hl⟩ | ⟨hdet, -⟩
  · obtain ⟨s', hs, -, hx, -⟩ := hl.erase
    exact ⟨s', hs, hx⟩
  · exact ⟨s, unlink_detached hdet, hdet⟩

/-- `unlink ()` of a node that is no header and no member of the list at `hd` leaves that list's
pointers alone. -/
theorem unlink_agreeOn (h : SysInv L s cont) {k : ListKind} (hk : (k, hd) ∈ L) {x : Ptr}
    (hxH : x ∉ L.map Prod.snd) (hx : x ∉ cont hd) (hs : unlink x s = some s') :
    LinksAgreeOn (hd :: cont hd) s s' := by
  rcases h.unlink_cases hxH hs with ⟨k₁, hd₁, ys, zs, hk₁, hc, -, -, hag⟩ | ⟨rfl, -⟩
  · have hne : hd₁ ≠ hd := fun e => hx (e ▸ hc ▸ List.mem_append_right _ (List.mem_cons_self _ _))
    exact h.agreeOn_other (List.mem_map_of_mem Prod.snd hk) (List.mem_map_of_mem Prod.snd hk₁) hne
      (e := []) (by simp) hag
  · exact fun _ _ => ⟨rfl, rfl⟩

end SysInv

/-! ### Runs -/

/-- The primitive operations on the system's lists; `R` says which changes of the records are
allowed. -/
inductive PrimStep (thr : Ptr → Ptr) (L : List (ListKind × Ptr)) (R : State → State → Prop) :
    State → State → Prop
  /-- A class's `link` of a detached node that is no header. -/
  | link {s s' : State} {k : ListKind} {hd n : Ptr} {fuel : ℕ} :
      (k, hd) ∈ L → n ∉ L.map Prod.snd → Detached s n → k.link thr fuel hd n s = some s' →
      PrimStep thr L R s s'
  /-- `unlink ()` of a node that is no header: a member of a list, or a detached node. -/
  | unlink {s s' : State} {x : Ptr} :
      x ∉ L.map Prod.snd → unlink x s = some s' → PrimStep thr L R s s'
  /-- `ready_threads_list::unlink_head ()`. -/
  | unlinkHead {s s' : State} {hd t : Ptr} :
      (.ready, hd) ∈ L → ReadyThreadsList.unlinkHead thr hd s = some (s', t) →
      PrimStep thr L R s s'
  /-- A change of the records that `R` allows and that leaves every pointer alone. -/
  | records {s s' : State} : s'.next = s.next → s'.prev = s.prev → R s s' → PrimStep thr L R s s'

variable {thr : Ptr → Ptr} {R : State → State → Prop}

namespace SysInv

/-- A member of a list is no header. -/
theorem mem_not_header (h : SysInv L s cont) {k : ListKind} (hk : (k, hd) ∈ L) {x : Ptr}
    (hx : x ∈ cont hd) : x ∉ L.map Prod.snd := fun hxH => by
  by_cases e : x = hd
  · exact (h.staticListAt hk).elim (fun hl => hl.ne_hd hx e) fun hz => by simp [hz.2] at hx
  · exact h.not_mem_other (List.mem_map_of_mem Prod.snd hk) hxH e (List.mem_cons_of_mem _ hx)
      (List.mem_cons_self _ _)

theorem head_not_header (h : SysInv L s cont) {k : ListKind} (hk : (k, hd) ∈ L)
    (hne : ¬empty s hd = true) {x : Ptr} (hx : head s hd = some x) : x ∉ L.map Prod.snd := by
  rcases h.staticListAt hk with hl | hz
  · cases hc : cont hd with
    | nil => exact absurd ((hc ▸ hl).empty_iff.2 rfl) hne
    | cons y ys =>
      have hl : ListAt s hd (y :: ys) := hc ▸ hl
      rw [head, hl.next_hd, List.headD_cons, Option.some.injEq] at hx
      exact hx ▸ h.mem_not_header hk (by simp [hc])
  · simp [empty, hz.1.2] at hne

/-- Removing the member `x` of the list at `hd`, leaving `x` detached, keeps the invariant. -/
theorem erase (h : SysInv L s cont) {k : ListKind} (hk : (k, hd) ∈ L) {ys zs : List Ptr}
    {x : Ptr} (hc : cont hd = ys ++ x :: zs) (hl : ListAt s' hd (ys ++ zs)) (hx : Detached s' x)
    (hag : LinksAgreeOff (hd :: (ys ++ x :: zs)) s s') :
    SysInv L s' (Function.update cont hd (ys ++ zs)) :=
  h.replace hk (e := []) (by simp) hl (fun p hp => Or.inl (by
      rw [hc]; simp only [List.mem_append, List.mem_cons] at hp ⊢; tauto))
    (by simpa [hc] using hag) fun p hp hpl => by
      rw [hc] at hp
      simp only [List.nil_append, List.mem_append, List.mem_cons] at hp hpl
      obtain rfl : p = x := by tauto
      exact hx

/-- What `unlink_head ()` on a list of the system does: the list has a head, which leaves it
detached, and its thread is marked running. -/
theorem unlinkHead_cases (h : SysInv L s cont) {k : ListKind} (hk : (k, hd) ∈ L) {t : Ptr}
    (hs : ReadyThreadsList.unlinkHead thr hd s = some (s', t)) :
    ∃ x xs, cont hd = x :: xs ∧ head s hd = some x ∧ ListAt s' hd xs ∧ Detached s' x ∧
      LinksAgreeOff (hd :: x :: xs) s s' ∧ s'.data = (s.setSchedState (thr x) .running).data := by
  cases hc : cont hd with
  | nil =>
    rw [ReadyThreadsList.unlinkHead_empty (hc ▸ h.staticListAt hk).empty_nil] at hs
    cases hs
  | cons x xs =>
    have hl : ListAt s hd (x :: xs) := (hc ▸ h.staticListAt hk).elim id fun hz => by simp at hz
    obtain ⟨s'', hs'', hl', hx', hag, hdata⟩ := ReadyThreadsList.unlinkHead_eq thr hl
    obtain ⟨rfl, -⟩ := Prod.mk.inj (Option.some.inj (hs.symm.trans hs''))
    exact ⟨x, xs, rfl, by simp [head, hl.next_hd], hl', hx', hag, hdata⟩

/-- **Every primitive operation keeps the invariant.** -/
theorem primStep (h : SysInv L s cont) (hst : PrimStep thr L R s s') :
    ∃ cont', SysInv L s' cont' := by
  cases hst with
  | @link k hd n _ hk hnH hn hs =>
    obtain ⟨ys, zs, hc, hl, hag, -⟩ := k.link_spec (h.staticListAt hk) hs
    refine ⟨_, h.replace hk (e := [n]) (by simpa using h.not_mem_of_detached hn hnH) hl
      (fun p hp => ?_) (by simpa using hag) fun p hp hpl => ?_⟩
    · rw [hc]; simp only [List.mem_append, List.mem_cons, List.mem_singleton] at hp ⊢; tauto
    · rw [hc] at hp
      simp only [List.singleton_append, List.mem_cons, List.mem_append] at hp hpl
      tauto
  | @unlink x hxH hs =>
    rcases h.unlink_cases hxH hs with ⟨k, hd, ys, zs, hk, hc, hl, hx, hag⟩ | ⟨rfl, -⟩
    · exact ⟨_, h.erase hk hc hl hx (hc ▸ hag)⟩
    · exact ⟨cont, h⟩
  | @unlinkHead hd t hk hs =>
    obtain ⟨x, xs, hc, -, hl, hx, hag, -⟩ := h.unlinkHead_cases hk hs
    exact ⟨_, h.erase hk (show cont hd = [] ++ x :: xs from hc) hl hx hag⟩
  | records hn hp _ => exact ⟨cont, h.of_links hn hp⟩

theorem primRun (h : SysInv L s cont) (hrun : ReflTransGen (PrimStep thr L R) s s') :
    ∃ cont', SysInv L s' cont' :=
  run_invariant (fun s => ∃ cont, SysInv L s cont) (fun hst ⟨_, h⟩ => h.primStep hst) hrun ⟨_, h⟩

end SysInv

/-- `resume_one`, whose `thread::resume` is a run of primitive operations, is one. -/
theorem resumeOne_primRun {resume : Ptr → State → Option State} {l : List Ptr}
    (h : SysInv L s cont) (hk : (.waiting, hd) ∈ L)
    (hres : ∀ th t t', resume th t = some t' → ReflTransGen (PrimStep thr L R) t t')
    (hs : WaitingThreadsList.resumeOne thr resume hd s = some (s', l)) :
    ReflTransGen (PrimStep thr L R) s s' := by
  have hl := h.listAt hk rfl
  cases hc : cont hd with
  | nil =>
    rw [WaitingThreadsList.resumeOne_of_empty ((hc ▸ hl).empty_iff.2 rfl), Option.some.injEq,
      Prod.mk.injEq] at hs
    exact hs.1 ▸ ReflTransGen.refl
  | cons x xs =>
    obtain ⟨s₁, hs₁, -, -, -, -, hone⟩ := WaitingThreadsList.resumeOne_cons thr resume (hc ▸ hl)
    have hxH : x ∉ L.map Prod.snd := h.mem_not_header hk (by simp [hc])
    have hunlink : ReflTransGen (PrimStep thr L R) s s₁ := ReflTransGen.single (.unlink hxH hs₁)
    rw [hone] at hs
    split_ifs at hs
    · obtain ⟨t, ht, he⟩ := Option.map_eq_some'.1 hs
      cases he
      exact hunlink.trans (hres _ _ _ ht)
    · cases hs
      exact hunlink

/-- `resume_all` is a run of `resume_one`s, so one of primitive operations. -/
theorem resumeAll_primRun {resume : Ptr → State → Option State} (hk : (.waiting, hd) ∈ L)
    (hres : ∀ th t t', resume th t = some t' → ReflTransGen (PrimStep thr L R) t t') :
    ∀ (fuel : ℕ) {s s' : State} {cont : Ptr → List Ptr} {l : List Ptr}, SysInv L s cont →
      WaitingThreadsList.resumeAll thr resume hd fuel s = some (s', l) →
      ReflTransGen (PrimStep thr L R) s s'
  | fuel, s, s', cont, l, h, hs => by
    unfold WaitingThreadsList.resumeAll at hs
    split_ifs at hs
    · cases hs
      exact ReflTransGen.refl
    cases fuel with
    | zero => cases hs
    | succ f =>
      simp only [Option.bind_eq_bind, Option.bind_eq_some] at hs
      obtain ⟨⟨s₁, l₁⟩, hs₁, ⟨s₂, l₂⟩, hs₂, he⟩ := hs
      cases he
      have hrun₁ := resumeOne_primRun h hk hres hs₁
      obtain ⟨cont₁, h₁⟩ := h.primRun hrun₁
      exact hrun₁.trans (resumeAll_primRun hk hres f h₁ hs₂)

/-- The loop of `check_timestamp`, whose actions are runs of primitive operations on the nodes
they are called on, is one. -/
theorem checkLoop_primRun {action : Ptr → State → Option State} {now : ℕ} (hk : (.clock, hd) ∈ L)
    (hact : ∀ n, n ∉ L.map Prod.snd → ∀ t t', action n t = some t' →
      ReflTransGen (PrimStep thr L R) t t') :
    ∀ (fuel : ℕ) {s s' : State} {cont : Ptr → List Ptr} {log : List (Ptr × ℕ)}, SysInv L s cont →
      ClockTimestampsList.checkLoop action hd now fuel s = some (s', log) →
      ReflTransGen (PrimStep thr L R) s s'
  | fuel, s, s', cont, log, h, hs => by
    unfold ClockTimestampsList.checkLoop at hs
    split_ifs at hs with hne
    · cases hs; exact ReflTransGen.refl
    simp only [Option.bind_eq_bind, Option.bind_eq_some] at hs
    obtain ⟨x, hx, _, -, hs⟩ := hs
    split_ifs at hs
    · cases fuel with
      | zero => cases hs
      | succ f =>
        simp only [Option.bind_eq_some] at hs
        obtain ⟨s₁, hs₁, ⟨s₂, _⟩, hs₂, he⟩ := hs
        cases he
        have hrun₁ := hact x (h.head_not_header hk hne hx) _ _ hs₁
        obtain ⟨cont₁, h₁⟩ := h.primRun hrun₁
        exact hrun₁.trans (checkLoop_primRun hk hact f h₁ hs₂)
    · cases hs; exact ReflTransGen.refl

theorem checkTimestamp_primRun {action : Ptr → State → Option State} {now fuel : ℕ}
    {log : List (Ptr × ℕ)} (h : SysInv L s cont) (hk : (.clock, hd) ∈ L)
    (hact : ∀ n, n ∉ L.map Prod.snd → ∀ t t', action n t = some t' →
      ReflTransGen (PrimStep thr L R) t t')
    (hs : ClockTimestampsList.checkTimestamp action hd now fuel s = some (s', log)) :
    ReflTransGen (PrimStep thr L R) s s' := by
  unfold ClockTimestampsList.checkTimestamp at hs
  split_ifs at hs
  · cases hs; exact ReflTransGen.refl
  · exact checkLoop_primRun hk hact fuel h hs

/-! ### Every reachable state -/

/-- A step of the system: a primitive operation, or one of the loops on a list of its class,
whose callbacks are runs of primitive operations. -/
inductive SysStep (thr : Ptr → Ptr) (L : List (ListKind × Ptr)) (R : State → State → Prop) :
    State → State → Prop
  | prim {s s' : State} : PrimStep thr L R s s' → SysStep thr L R s s'
  /-- `waiting_threads_list::resume_one ()`. -/
  | resumeOne {s s' : State} {hd : Ptr} {resume : Ptr → State → Option State} {l : List Ptr} :
      (.waiting, hd) ∈ L →
      (∀ th t t', resume th t = some t' → ReflTransGen (PrimStep thr L R) t t') →
      WaitingThreadsList.resumeOne thr resume hd s = some (s', l) → SysStep thr L R s s'
  /-- `waiting_threads_list::resume_all ()`. -/
  | resumeAll {s s' : State} {hd : Ptr} {resume : Ptr → State → Option State} {fuel : ℕ}
      {l : List Ptr} :
      (.waiting, hd) ∈ L →
      (∀ th t t', resume th t = some t' → ReflTransGen (PrimStep thr L R) t t') →
      WaitingThreadsList.resumeAll thr resume hd fuel s = some (s', l) → SysStep thr L R s s'
  /-- `clock_timestamps_list::check_timestamp (now)`. -/
  | checkTimestamp {s s' : State} {hd : Ptr} {action : Ptr → State → Option State}
      {now fuel : ℕ} {log : List (Ptr × ℕ)} :
      (.clock, hd) ∈ L →
      (∀ n, n ∉ L.map Prod.snd → ∀ t t', action n t = some t' →
        ReflTransGen (PrimStep thr L R) t t') →
      ClockTimestampsList.checkTimestamp action hd now fuel s = some (s', log) →
      SysStep thr L R s s'

/-- The start of a run: no two lists share a header; each list is empty, its header linked to
itself by `clear ()`, or is a static list whose header is still zero; every other node is
detached. -/
structure Init (L : List (ListKind × Ptr)) (s : State) : Prop where
  headers : (L.map Prod.snd).Nodup
  lists : ∀ k hd, (k, hd) ∈ L → ListAt s hd [] ∨ (k.isStatic = true ∧ Detached s hd)
  detached : ∀ p, p ∉ L.map Prod.snd → Detached s p

theorem Init.sysInv (h : Init L s) : SysInv L s fun _ => [] :=
  ⟨fun k hd hk => (h.lists k hd hk).imp id fun hz => ⟨hz.1, hz.2, rfl⟩, h.headers,
    fun _ _ _ _ hne p hp => by rw [List.mem_singleton] at hp ⊢; exact hp ▸ hne,
    fun p hp => h.detached p fun hpH => hp p hpH (List.mem_cons_self _ _)⟩

/-- A wait list cleared at `0` and a ready list whose header `9` is still zero, every other node
detached. -/
theorem Init.waiting_ready : Init [(.waiting, 0), (.ready, 9)] (ringState 0 []) where
  headers := by decide
  lists k hd hk := by
    simp only [List.mem_cons, Prod.mk.injEq, List.mem_singleton, List.not_mem_nil, or_false] at hk
    rcases hk with ⟨rfl, rfl⟩ | ⟨rfl, rfl⟩
    · exact Or.inl (by decide)
    · exact Or.inr (by decide)
  detached p hp := by
    simp only [List.map_cons, List.map_nil, List.mem_cons, List.mem_singleton, not_or] at hp
    simp [Detached, ringState, List.lookup_cons, beq_false_of_ne hp.1, hp.1]

/-- On a system that keeps the invariant, every step is a run of primitive operations. -/
theorem SysStep.primRun {cont : Ptr → List Ptr} (h : SysInv L s cont)
    (hst : SysStep thr L R s s') : ReflTransGen (PrimStep thr L R) s s' := by
  cases hst with
  | prim hst => exact .single hst
  | resumeOne hk hres hs => exact resumeOne_primRun h hk hres hs
  | resumeAll hk hres hs => exact resumeAll_primRun hk hres _ h hs
  | checkTimestamp hk hact hs => exact checkTimestamp_primRun h hk hact hs

namespace SysInv

theorem sysStep (h : SysInv L s cont) (hst : SysStep thr L R s s') : ∃ cont', SysInv L s' cont' :=
  h.primRun (hst.primRun h)

theorem sysRun (h : SysInv L s cont) (hrun : ReflTransGen (SysStep thr L R) s s') :
    ∃ cont', SysInv L s' cont' :=
  run_invariant (fun s => ∃ cont, SysInv L s cont) (fun hst ⟨_, h⟩ => h.sysStep hst) hrun ⟨_, h⟩

end SysInv

/-- **The lists stay well formed.** From lists freshly made and every other node detached,
in every state a run of the system reaches, each list is a static list whose header is still
zero, or a circular doubly linked list through its header; no node is in two lists; a node in
no list is detached. -/
theorem system_wellFormed (thr : Ptr → Ptr) {R : State → State → Prop}
    {L : List (ListKind × Ptr)} {s₀ s : State} (h₀ : Init L s₀)
    (hrun : ReflTransGen (SysStep thr L R) s₀ s) :
    ∃ cont : Ptr → List Ptr,
      (∀ k hd, (k, hd) ∈ L → (k.isStatic = true ∧ Detached s hd ∧ cont hd = []) ∨
        (ListAt s hd (cont hd) ∧ Circular s hd (cont hd).length (hd :: cont hd))) ∧
      (∀ hd₁ ∈ L.map Prod.snd, ∀ hd₂ ∈ L.map Prod.snd, hd₁ ≠ hd₂ →
        ∀ p ∈ hd₁ :: cont hd₁, p ∉ hd₂ :: cont hd₂) ∧
      (∀ p, (∀ hd ∈ L.map Prod.snd, p ∉ hd :: cont hd) → Detached s p) := by
  obtain ⟨cont, h⟩ := h₀.sysInv.sysRun hrun
  exact ⟨cont, fun k hd hk => (h.lists k hd hk).symm.imp_right fun hl => ⟨hl, hl.circular⟩,
    h.disjoint, h.detached⟩

/-- A wait list cleared at `0` and a ready list whose header `9` is still zero: node `1` waits,
then node `2` is made ready, the ready list's first `link` promoting its header. -/
theorem system_wellFormed_start :
    ∃ s, ReflTransGen (SysStep id [(.waiting, 0), (.ready, 9)] fun _ _ => True) (ringState 0 []) s ∧
    ∃ cont : Ptr → List Ptr,
      (∀ k hd, (k, hd) ∈ [(ListKind.waiting, 0), (ListKind.ready, 9)] →
        (k.isStatic = true ∧ Detached s hd ∧ cont hd = []) ∨
        (ListAt s hd (cont hd) ∧ Circular s hd (cont hd).length (hd :: cont hd))) ∧
      (∀ hd₁ ∈ [0, 9], ∀ hd₂ ∈ [0, 9], hd₁ ≠ hd₂ → ∀ p ∈ hd₁ :: cont hd₁, p ∉ hd₂ :: cont hd₂) ∧
      (∀ p, (∀ hd ∈ [0, 9], p ∉ hd :: cont hd) → Detached s p) := by
  have hrun := (ReflTransGen.single (r := SysStep id [(.waiting, 0), (.ready, 9)] fun _ _ => True)
    (.prim (.link (by decide) (by decide) (by decide)
      (show ListKind.waiting.link id 0 0 1 (ringState 0 []) = some _ from rfl)))).tail
    (.prim (.link (by decide) (by decide) (by decide)
      (show ListKind.ready.link id 0 9 2 _ = some _ from rfl)))
  exact ⟨_, hrun, system_wellFormed id Init.waiting_ready hrun⟩

/-- **`unlink ()` is safe and idempotent.** In every state a run of the system reaches,
`unlink ()` of a node that is no header returns without tripping its assertion, leaves the node
detached in a state the system reaches, and a second `unlink ()` of it changes nothing: the
wake-up path and a cancellation may both unlink one timeout's node. -/
theorem unlink_idempotent (thr : Ptr → Ptr) {R : State → State → Prop}
    {L : List (ListKind × Ptr)} {s₀ s : State} (h₀ : Init L s₀)
    (hrun : ReflTransGen (SysStep thr L R) s₀ s) {x : Ptr} (hxH : x ∉ L.map Prod.snd) :
    ∃ s', unlink x s = some s' ∧ Detached s' x ∧ unlink x s' = some s' ∧
      ReflTransGen (SysStep thr L R) s₀ s' := by
  obtain ⟨cont, h⟩ := h₀.sysInv.sysRun hrun
  obtain ⟨s', hs, hx⟩ := h.unlink_some hxH
  exact ⟨s', hs, hx, unlink_detached hx, hrun.tail (.prim (.unlink hxH hs))⟩

/-- Node `1`, linked into a wait list, unlinks, and a second time changes nothing. -/
theorem unlink_idempotent_start :
    ∃ s, ReflTransGen (SysStep id [(.waiting, 0), (.ready, 9)] fun _ _ => True) (ringState 0 []) s ∧
      ∃ s', unlink 1 s = some s' ∧ Detached s' 1 ∧ unlink 1 s' = some s' ∧
        ReflTransGen (SysStep id [(.waiting, 0), (.ready, 9)] fun _ _ => True) (ringState 0 []) s' := by
  have hrun := ReflTransGen.single (r := SysStep id [(.waiting, 0), (.ready, 9)] fun _ _ => True)
    (.prim (.link (by decide) (by decide) (by decide)
      (show ListKind.waiting.link id 0 0 1 (ringState 0 []) = some _ from rfl)))
  exact ⟨_, hrun, unlink_idempotent id Init.waiting_ready hrun (by decide)⟩

end MicroOsPlus.Rtos
