import DnsRelay.HashMap
import DnsRelay.StaticCache

/-!
# The static stores as maps

An initialised store lists the addresses given for each name in the order of the calls.
The hash table leads from a name to the index of its record, and a record keeps its index
and its label, so a call that adds an address changes the list of one name only.
-/

namespace DnsRelay.Static

open DnsRelay.Hash DnsRelay.Lib.Machine Function

/-- The addresses that a caller of `get_static_cache` finds, none for NULL. -/
def listed (c : StaticCache) (label : Label) : Exec (List IP) := do
  match ← getStaticCache c label with
  | some record => addresses c record
  | none => return []

/-- `set_static_cache` takes the branch `static cache overflow`. -/
def overflows (c : StaticCache) (label : Label) : Prop :=
  c.isInit = true ∧ getStaticCache c label = .ok none ∧ c.data.length = c.size

instance (c : StaticCache) (label : Label) : Decidable (overflows c label) :=
  inferInstanceAs (Decidable (_ ∧ _ ∧ _))

/-- `set_static_cache` with a stop in place of the branch `static cache overflow`. -/
def setOrStop (c : StaticCache) (label : Label) (ip : IP) : Exec (StaticCache × Bool) :=
  if overflows c label then .error .noRemainSpace else setStaticCache c label ip

section Records

variable {data : List StaticRecordData} {i : ℕ} {label : Label} {ip : IP}

/-- The label of the record at an index. -/
def labelAt (data : List StaticRecordData) (i : ℕ) : Label := (data[i]?.map (·.label)).getD []

/-- The addresses of the record at an index. -/
def listAt (data : List StaticRecordData) (i : ℕ) : List IP :=
  (data[i]?.map fun d => d.ip :: d.next).getD []

theorem compareStatic_of_lt (h : i < data.length) (label : Label) :
    compareStatic data (some i) label = .ok (decide (labelAt data i = label)) := by
  simp only [compareStatic, labelAt, Option.bind_some, List.getElem?_eq_getElem h, Option.map_some,
    Option.getD_some, beq_eq_decide]

/-- An address that is added to a record leaves every label in place. -/
theorem labelAt_modify (i : ℕ) (ip : IP) :
    labelAt (data.modify i fun d => { d with next := d.next ++ [ip] }) = labelAt data := by
  funext j
  rw [labelAt, labelAt, List.getElem?_modify]
  cases data[j]? with
  | none => rfl
  | some d => by_cases hij : i = j <;> simp [hij]

theorem listAt_modify (h : i < data.length) (ip : IP) :
    listAt (data.modify i fun d => { d with next := d.next ++ [ip] }) =
      update (listAt data) i (listAt data i ++ [ip]) := by
  funext j
  rw [listAt, List.getElem?_modify]
  by_cases hij : i = j
  · subst hij
    rw [update_self, listAt, List.getElem?_eq_getElem h]
    simp
  · rw [update_of_ne (Ne.symm hij), listAt]
    cases data[j]? with
    | none => rfl
    | some d => simp [hij]

theorem labelAt_append_of_lt (h : i < data.length) (d : StaticRecordData) :
    labelAt (data ++ [d]) i = labelAt data i := by
  rw [labelAt, labelAt, List.getElem?_append_left h]

theorem listAt_append_of_lt (h : i < data.length) (d : StaticRecordData) :
    listAt (data ++ [d]) i = listAt data i := by
  rw [listAt, listAt, List.getElem?_append_left h]

end Records

/-- The store is initialised and lists for each name what `m` says; `index` is the map that
its hash table represents. -/
structure Lists (c : StaticCache) (index : Label → Option ℕ) (m : Label → List IP) : Prop where
  isInit : c.isInit = true
  table : RepresentsMap (labelAt c.data) c.table index
  lt : ∀ b i, some i ∈ c.table.chain b → i < c.data.length
  value : ∀ label, m label = ((index label).map (listAt c.data)).getD []

namespace Lists

variable {c c' : StaticCache} {index : Label → Option ℕ} {m : Label → List IP} {label : Label}
  {i : ℕ} {ip : IP}

/-- A store fresh from `init_staticCache` lists nothing. -/
theorem init (h : c.isInit = false) (size scaled : ℕ) :
    Lists (initStaticCache c size scaled) (fun _ => none) fun _ => [] := by
  have hc : initStaticCache c size scaled =
      ⟨[], true, size, initHashtable Lru.hashLabel scaled⟩ := by
    simp [initStaticCache, h]
  rw [hc]
  constructor
  · rfl
  · exact RepresentsMap.empty _ _ _
  · intro b i hi
    simp [initHashtable, Hashtable.chain] at hi
  · intro label
    rfl

theorem index_lt (h : Lists c index m) (hi : index label = some i) : i < c.data.length :=
  h.lt _ i ((h.table.value label i).mp hi).2

theorem labelAt_index (h : Lists c index m) (hi : index label = some i) :
    labelAt c.data i = label := ((h.table.value label i).mp hi).1

theorem decides (h : Lists c index m) :
    RepresentsMap.Decides (compareStatic c.data) (labelAt c.data) c.table :=
  fun b i hi label => compareStatic_of_lt (h.lt b i hi) label

/-- `get_static_cache` returns the record of a name, and NULL if there is none. -/
theorem getStaticCache_eq (h : Lists c index m) (label : Label) :
    getStaticCache c label = .ok (index label) := by
  obtain ⟨node, hget, hnode⟩ := h.table.get h.decides label
  have hinit := h.isInit
  cases hi : index label with
  | none =>
      rw [hi] at hget
      simp [getStaticCache, hinit, hget, bind, Except.bind, pure, Except.pure]
  | some i =>
      rw [hi] at hget hnode
      simp [getStaticCache, hinit, hget, hnode rfl, bind, Except.bind, pure, Except.pure]

theorem listed_eq (h : Lists c index m) (label : Label) : listed c label = .ok (m label) := by
  rw [h.value label]
  cases hi : index label with
  | none =>
      simp [listed, h.getStaticCache_eq, hi, bind, Except.bind, pure, Except.pure]
  | some i =>
      have hlt := h.index_lt hi
      simp [listed, h.getStaticCache_eq, hi, addresses, listAt, List.getElem?_eq_getElem hlt, bind,
        Except.bind]

/-- NULL stands for the empty list. -/
theorem index_eq_none (h : Lists c index m) : index label = none ↔ m label = [] := by
  rw [h.value label]
  cases hi : index label with
  | none => simp
  | some i =>
      have hlt := h.index_lt hi
      simp [listAt, List.getElem?_eq_getElem hlt]

/-- An address for a name that is stored already goes to the end of its list. -/
theorem addTo (h : Lists c index m) (hi : index label = some i) (ip : IP) :
    Lists { c with data := c.data.modify i fun d => { d with next := d.next ++ [ip] } } index
      (update m label (m label ++ [ip])) where
  isInit := h.isInit
  table := by
    rw [show labelAt _ = labelAt c.data from labelAt_modify i ip]
    exact h.table
  lt := by
    intro b j hj
    rw [List.length_modify]
    exact h.lt b j hj
  value := by
    have hlt := h.index_lt hi
    intro other
    rw [show listAt _ = _ from listAt_modify hlt ip]
    by_cases hother : other = label
    · subst hother
      rw [update_self, h.value other, hi]
      simp
    · rw [update_of_ne hother, h.value other]
      cases hj : index other with
      | none => rfl
      | some j =>
          -- two names do not share a record
          have hne : j ≠ i := by
            rintro rfl
            exact hother ((h.labelAt_index hj).symm.trans (h.labelAt_index hi))
          simp [update_of_ne hne]

/-- A new name gets a record of its own behind the others. -/
theorem append (h : Lists c index m) (hi : index label = none) (ip : IP) :
    ∃ table node, setHashnode (compareStatic (c.data ++ [⟨label, ip, []⟩])) c.table label
        (some c.data.length) = .ok (table, node, false) ∧
      Lists { c with data := c.data ++ [⟨label, ip, []⟩], table := table }
        (update index label (some c.data.length)) (update m label (m label ++ [ip])) := by
  have hkeys : ∀ b i, some i ∈ c.table.chain b →
      labelAt c.data i = labelAt (c.data ++ [⟨label, ip, []⟩]) i :=
    fun b i hi => (labelAt_append_of_lt (h.lt b i hi) _).symm
  have hdecides : RepresentsMap.Decides (compareStatic (c.data ++ [⟨label, ip, []⟩]))
      (labelAt (c.data ++ [⟨label, ip, []⟩])) c.table := by
    intro b i hi other
    have hlt := h.lt b i hi
    exact compareStatic_of_lt (by rw [List.length_append]; omega) other
  have hkey : labelAt (c.data ++ [⟨label, ip, []⟩]) c.data.length = label := by
    simp [labelAt]
  obtain ⟨l, node, hset, hnode, htable⟩ := (h.table.congr_key hkeys).set hdecides hkey
  refine ⟨_, node, by rw [hset, hi]; rfl, ⟨h.isInit, htable, ?_, ?_⟩⟩
  · intro b i hmem
    obtain ⟨hb, -⟩ := htable.mem_chain hmem
    by_cases hlabel : labelAt (c.data ++ [⟨label, ip, []⟩]) i = label
    · rw [hlabel, update_self] at hb
      cases hb
      simp
    · rw [update_of_ne hlabel] at hb
      have := h.index_lt hb
      simp only [List.length_append]
      omega
  · intro other
    by_cases hother : other = label
    · subst hother
      rw [update_self, update_self, h.value other, hi]
      simp [listAt]
    · rw [update_of_ne hother, update_of_ne hother, h.value other]
      cases hj : index other with
      | none => rfl
      | some j =>
          simp [listAt_append_of_lt (h.index_lt hj)]

/-- The branch of a name that is stored already, which returns false. -/
theorem setStaticCache_of_some (h : Lists c index m) (hi : index label = some i) (ip : IP) :
    setStaticCache c label ip = .ok ({ c with
      data := c.data.modify i fun d => { d with next := d.next ++ [ip] } }, false) := by
  simp only [setStaticCache, h.isInit, if_true, h.getStaticCache_eq label, hi, bind, Except.bind]
  rfl

/-- The branch of a new name, where there is room for it. -/
theorem setStaticCache_of_none (h : Lists c index m) (hi : index label = none)
    (hroom : c.data.length ≠ c.size) (ip : IP) :
    ∃ table, setStaticCache c label ip =
        .ok ({ c with data := c.data ++ [⟨label, ip, []⟩], table := table }, true) ∧
      Lists { c with data := c.data ++ [⟨label, ip, []⟩], table := table }
        (update index label (some c.data.length)) (update m label (m label ++ [ip])) := by
  obtain ⟨table, node, hset, hlists⟩ := h.append hi ip
  refine ⟨table, ?_, hlists⟩
  simp only [setStaticCache, h.isInit, if_true, h.getStaticCache_eq label, hi, hroom, if_false,
    hset, bind, Except.bind]
  rfl

/-- The branch `static cache overflow`. -/
theorem setStaticCache_of_full (h : Lists c index m) (hi : index label = none)
    (hfull : c.data.length = c.size) (ip : IP) : setStaticCache c label ip = .ok (c, false) := by
  simp only [setStaticCache, h.isInit, if_true, h.getStaticCache_eq label, hi, hfull, bind,
    Except.bind]
  rfl

/-- `set_static_cache` adds the address to the list of the name, where there is room for a
record of a new name. -/
theorem setStaticCache_ok (h : Lists c index m) (hroom : ¬ overflows c label) (ip : IP) :
    ∃ c' r index', setStaticCache c label ip = .ok (c', r) ∧
      Lists c' index' (update m label (m label ++ [ip])) ∧ c'.size = c.size ∧
      c'.data.length ≤ c.data.length + 1 := by
  have hget := h.getStaticCache_eq label
  cases hi : index label with
  | some i =>
      exact ⟨_, false, index, h.setStaticCache_of_some hi ip, h.addTo hi ip, rfl, by simp⟩
  | none =>
      rw [hi] at hget
      have hlen : c.data.length ≠ c.size := fun hlen => hroom ⟨h.isInit, hget, hlen⟩
      obtain ⟨table, hset, hlists⟩ := h.setStaticCache_of_none hi hlen ip
      exact ⟨_, true, _, hset, hlists, rfl, by simp⟩

end Lists

end DnsRelay.Static
