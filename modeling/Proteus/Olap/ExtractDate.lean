import Proteus.Calendar

/-!
# Fields of a date

`ExpressionGeneratorVisitor::visit(ExtractExpression)` generates code that reads a field (the
year, the month, the day of the week, ...) off a date, which is a 64-bit number of
milliseconds since 1970. The day is turned into a Julian day number, and a chain of integer
divisions, taken over from Calcite's `julianExtract`, turns that into a date.

The divisions invert the day number of the Gregorian calendar (`date_index`), so that the
fields are those of the calendar. The day of a timestamp is the unsigned quotient, though: a
timestamp before 1970 is read as one some 584 million years later.
-/

namespace Proteus.ExtractDate

open BitVec Calendar Int

/-! ## The expression and the generated code -/

inductive ExtractUnit
  | millisecond | second | minute | hour
  | dayOfWeek | isoDayOfWeek | dayOfMonth | dayOfYear
  | week | month | quarter | year | isoYear
  | decade | century | millennium
  deriving DecidableEq

/-- The width of the type of the result: `IntType` is `i32` in LLVM. -/
def createReturnType : ExtractUnit → Except String ℕ
  | .second | .minute | .hour | .dayOfWeek | .dayOfMonth | .dayOfYear | .week | .month
  | .quarter | .year | .millennium | .century | .decade => .ok 32
  | _ => .error "[extract_unit: ] Unknown return type for extract unit"

/-- The constructor computes the type, so an expression exists only for some units. -/
structure ExtractExpression where
  unit : ExtractUnit
  typed : createReturnType unit = .ok 32

structure ProteusValue (w : ℕ) where
  value : BitVec w
  isNull : Bool

def createInt64 (i : ℤ) : BitVec 64 := BitVec.ofInt 64 i

def createInt32 (i : ℤ) : BitVec 32 := BitVec.ofInt 32 i

def unknownUnit : String := "[ExpressionGeneratorVisitor]: Unknown extract unit"

def getYearDiv : ExtractUnit → Except String ℤ
  | .year => .ok 1
  | .decade => .ok 10
  | .century => .ok 100
  | .millennium => .ok 1000
  | _ => .error unknownUnit

def getYearAbsOffset : ExtractUnit → Except String ℤ
  | .year => .ok 0
  | .decade => .ok 0
  | .century => .ok 99
  | .millennium => .ok 999
  | _ => .error unknownUnit

def floorDiv (x y : BitVec 64) : BitVec 64 :=
  let r := x.sdiv y
  if (x ^^^ y).slt (createInt64 0) && r * y != x then r - createInt64 1 else r

def floorMod (x y : BitVec 64) : BitVec 64 := x - floorDiv x y * y

def msPerS : ℤ := 1000
def msPerM : ℤ := 60 * msPerS
def msPerH : ℤ := 60 * msPerM
def msPerDay : ℤ := 24 * msPerH
def epochJulian : ℤ := 2440588

variable (v : BitVec 64)

def julian : BitVec 64 :=
  v.udiv (createInt64 msPerDay) + createInt64 epochJulian

/-- `y` and `da`: the full years elapsed since the first of March 4801 BC, and the days
elapsed since the last first of March. -/
def marchYear (j : BitVec 64) : BitVec 64 × BitVec 64 :=
  let g := j.sdiv (createInt64 146097)
  let dg := j.srem (createInt64 146097)
  let c := ((dg.sdiv (createInt64 36524) + createInt64 1) * createInt64 3).sdiv (createInt64 4)
  let dc := dg - c * createInt64 36524
  let b := dc.sdiv (createInt64 1461)
  let db := dc.srem (createInt64 1461)
  let a := ((db.sdiv (createInt64 365) + createInt64 1) * createInt64 3).sdiv (createInt64 4)
  let da := db - a * createInt64 365
  (g * createInt64 400 + c * createInt64 100 + (b * createInt64 4 + a), da)

/-- The fields of a date, as words. -/
structure Fields where
  year : BitVec 64
  month : BitVec 64
  day : BitVec 64

def fields (y da : BitVec 64) : Fields :=
  let m := (da * createInt64 5 + createInt64 308).sdiv (createInt64 153) - createInt64 2
  let d := da - ((m + createInt64 4) * createInt64 153).sdiv (createInt64 5) + createInt64 122
  { year := y - createInt64 4800 + (m + createInt64 2).sdiv (createInt64 12)
    month := (m + createInt64 2).srem (createInt64 12) + createInt64 1
    day := d + createInt64 1 }

/-- The date of the day `j - 32044` in Julian days. -/
def date (j : BitVec 64) : Fields := fields (marchYear j).1 (marchYear j).2

def vtime : BitVec 32 :=
  (floorMod v (createInt64 msPerDay)).setWidth 32

/-- `CreateSExtOrTrunc` to the type of the expression. -/
def sExtOrTrunc {w : ℕ} (x : BitVec w) : BitVec 32 := x.signExtend 32

/-- The value that the switch over the units leaves in `v.value`. -/
def extract (u : ExtractUnit) (v : BitVec 64) : Except String (BitVec 32) :=
  let f := date (julian v + createInt64 32044)
  match u with
  | .millisecond => .ok (sExtOrTrunc (vtime v % createInt32 msPerS))
  | .second => .ok (sExtOrTrunc (vtime v / createInt32 msPerS % createInt32 60))
  | .minute => .ok (sExtOrTrunc (vtime v / createInt32 msPerM % createInt32 60))
  | .hour => .ok (sExtOrTrunc (vtime v / createInt32 msPerH))
  | .dayOfWeek =>
    .ok (sExtOrTrunc (floorMod (julian v + createInt64 1) (createInt64 7) + createInt64 1))
  | .isoDayOfWeek => .ok (sExtOrTrunc (floorMod (julian v) (createInt64 7) + createInt64 1))
  | .dayOfMonth => .ok (sExtOrTrunc f.day)
  | .dayOfYear =>
    let y := f.year + createInt64 4799
    .ok (sExtOrTrunc (createInt64 365 * y + y.sdiv (createInt64 4) - y.sdiv (createInt64 100)
      + (y.sdiv (createInt64 400) - createInt64 31738)))
  | .month => .ok (sExtOrTrunc f.month)
  | .quarter => .ok (sExtOrTrunc ((f.month + createInt64 2).udiv (createInt64 3)))
  | .year | .decade | .century | .millennium => do
    let aoff ← getYearAbsOffset u
    let soff := if (createInt64 0).slt f.year then createInt64 aoff else createInt64 (-aoff)
    let div ← getYearDiv u
    return sExtOrTrunc ((f.year + soff).sdiv (createInt64 div))
  | .week | .isoYear => .error unknownUnit

def visit (e : ExtractExpression) (v : ProteusValue 64) : Except String (ProteusValue 32) :=
  (extract e.unit v.value).map fun x => { value := x, isNull := v.isNull }

/-- The integer that the expression reads off a date that is not null. -/
def read (u : ExtractUnit) (typed : createReturnType u = .ok 32) (v : BitVec 64) :
    Except String ℤ :=
  (visit ⟨u, typed⟩ ⟨v, false⟩).map fun r => r.value.toInt

/-! ## Words that hold small integers -/

variable (x y : ℤ)

theorem createInt64_add : createInt64 x + createInt64 y = createInt64 (x + y) :=
  (ofInt_add x y).symm

theorem createInt64_mul : createInt64 x * createInt64 y = createInt64 (x * y) :=
  (ofInt_mul x y).symm

theorem createInt64_sub : createInt64 x - createInt64 y = createInt64 (x - y) := by
  rw [createInt64, createInt64, createInt64, Int.sub_eq_add_neg, ofInt_add,
    ofInt_neg, sub_eq_add_neg]

theorem toInt_createInt64 {x : ℤ} (h : -2 ^ 63 ≤ x) (h' : x < 2 ^ 63) : (createInt64 x).toInt = x := by
  rw [createInt64, toInt_ofInt]
  exact bmod_eq_of_le (by omega) (by omega)

theorem msb_createInt64 {x : ℤ} (hx : 0 ≤ x) (hx' : x < 2 ^ 63) : (createInt64 x).msb = false := by
  rw [msb_eq_toInt, toInt_createInt64 (by omega) hx']
  simpa using hx

section

variable {x y : ℤ} (hx : -2 ^ 63 ≤ x) (hx' : x < 2 ^ 63) (hy : 0 < y) (hy' : y < 2 ^ 63)
include hx hx' hy hy'

theorem createInt64_tdiv : (createInt64 x).sdiv (createInt64 y) = createInt64 (x.tdiv y) := by
  apply eq_of_toInt_eq
  rw [toInt_sdiv, toInt_createInt64 hx hx', toInt_createInt64 (by omega) hy', createInt64,
    toInt_ofInt]

/-- The quotient that `sdiv` rounds up is corrected. -/
theorem createInt64_floorMod : floorMod (createInt64 x) (createInt64 y) = createInt64 (x % y) := by
  have hs : (createInt64 x ^^^ createInt64 y).slt (createInt64 0) = decide (x < 0) := by
    have h0 : createInt64 0 = 0#64 := rfl
    rw [h0, slt_zero_eq_msb, msb_xor, msb_createInt64 hy.le hy', Bool.xor_false, msb_eq_toInt,
      toInt_createInt64 hx hx']
  have hq : floorDiv (createInt64 x) (createInt64 y) = createInt64 (x / y) := by
    rw [floorDiv, createInt64_tdiv hx hx' hy hy', hs, createInt64_mul, tdiv_eq_ediv,
      sign_eq_one_of_pos hy]
    by_cases h : 0 ≤ x ∨ y ∣ x
    · have hc (h0 : x < 0) : x / y * y = x := Int.ediv_mul_cancel (h.resolve_left h0.not_ge)
      simpa [h] using fun h0 hne => absurd (congrArg createInt64 (hc h0)) hne
    · have hlt := lt_ediv_add_one_mul_self x hy
      have hle := Int.ediv_mul_le x hy.ne'
      rw [add_one_mul] at hlt
      have hw : createInt64 (x / y * y + y) ≠ createInt64 x := by
        rw [← toInt_inj.ne, toInt_createInt64 hx hx', toInt_createInt64 (by omega) (by omega)]
        exact hlt.ne'
      simp [hw, createInt64_sub, add_one_mul, not_or.1 h]
  rw [floorMod, hq, createInt64_mul, createInt64_sub, emod_def, mul_comm]

end

section

variable {x y : ℤ} (hx : 0 ≤ x) (hx' : x < 2 ^ 63) (hy : 0 < y) (hy' : y < 2 ^ 63)
include hx hx' hy hy'

theorem createInt64_sdiv : (createInt64 x).sdiv (createInt64 y) = createInt64 (x / y) := by
  rw [createInt64_tdiv (by omega) hx' hy hy', tdiv_eq_ediv_of_nonneg hx]

/-- On such words the unsigned quotient is the signed one. -/
theorem createInt64_udiv : (createInt64 x).udiv (createInt64 y) = createInt64 (x / y) := by
  rw [← createInt64_sdiv hx hx' hy hy', sdiv_eq, msb_createInt64 hx hx', msb_createInt64 hy.le hy']

theorem createInt64_srem : (createInt64 x).srem (createInt64 y) = createInt64 (x % y) := by
  have hr := emod_nonneg x hy.ne'
  have hr' := emod_lt_of_pos x hy
  apply eq_of_toInt_eq
  rw [toInt_srem, toInt_createInt64 (by omega) hx', toInt_createInt64 (by omega) hy',
    toInt_createInt64 (by omega) (by omega), tmod_eq_emod_of_nonneg hx]

end

/-! ## The divisions invert the day number -/

/-- Four centuries, centuries, four years, years and days: the places of the day number. The
last day of four years and that of four centuries is the 366th of its year. -/
structure Places where
  g : ℤ
  c : ℤ
  b : ℤ
  a : ℤ
  da : ℤ
  g_nonneg : 0 ≤ g
  c_mem : 0 ≤ c ∧ c ≤ 3
  b_mem : 0 ≤ b ∧ b ≤ 24
  a_mem : 0 ≤ a ∧ a ≤ 3
  da_mem : 0 ≤ da ∧ da ≤ 365
  leap : da = 365 → a = 3 ∧ (b < 24 ∨ c = 3)

variable (p : Places)

def Places.year : ℤ := 400 * p.g + 100 * p.c + 4 * p.b + p.a

def Places.index : ℤ :=
  146097 * p.g + 36524 * p.c + 1461 * p.b + 365 * p.a + p.da

theorem marchYear_places (h : p.index < 2 ^ 62) :
    marchYear (createInt64 p.index) = (createInt64 p.year, createInt64 p.da) := by
  obtain ⟨g, c, b, a, da, hg, hc, hb, ha, hda, hl⟩ := p
  simp only [Places.index, Places.year] at h ⊢
  have eg : (146097 * g + 36524 * c + 1461 * b + 365 * a + da) / 146097 = g := by omega
  have edg : (146097 * g + 36524 * c + 1461 * b + 365 * a + da) % 146097
      = 36524 * c + 1461 * b + 365 * a + da := by omega
  -- only the last day of four centuries begins a fifth one, which the factor 3 / 4 takes back
  have ec : ((36524 * c + 1461 * b + 365 * a + da) / 36524 + 1) * 3 / 4 = c := by
    have hlast : 1461 * b + 365 * a + da < 36524 ∨ c = 3 ∧ 1461 * b + 365 * a + da = 36524 := by
      omega
    rcases hlast with hlt | ⟨rfl, heq⟩
    · have hq : (36524 * c + 1461 * b + 365 * a + da) / 36524 = c := by omega
      omega
    · omega
  have edc : 36524 * c + 1461 * b + 365 * a + da - c * 36524 = 1461 * b + 365 * a + da := by omega
  have eb : (1461 * b + 365 * a + da) / 1461 = b := by omega
  have edb : (1461 * b + 365 * a + da) % 1461 = 365 * a + da := by omega
  have ea : ((365 * a + da) / 365 + 1) * 3 / 4 = a := by
    have hlast : da < 365 ∨ a = 3 ∧ da = 365 := by omega
    rcases hlast with hlt | ⟨rfl, rfl⟩
    · have hq : (365 * a + da) / 365 = a := by omega
      omega
    · rfl
  have eda : 365 * a + da - a * 365 = da := by omega
  have ey : g * 400 + c * 100 + (b * 4 + a) = 400 * g + 100 * c + 4 * b + a := by omega
  simp (disch := omega) only [marchYear, createInt64_add, createInt64_mul, createInt64_sub,
    createInt64_sdiv, createInt64_srem, eg, edg, ec, edc, eb, edb, ea, eda, ey]

theorem leap_place (d : Date) (h : (d.marchDay : ℤ) = 365) : (d.marchYear + 4800) % 4 = 3 ∧
    ((d.marchYear + 4800) % 100 / 4 < 24 ∨ (d.marchYear + 4800) % 400 / 100 = 3) := by
  rcases d.marchDay_le with h' | ⟨-, hl⟩
  · omega
  · simp only [isLeap, decide_eq_true_eq] at hl
    omega

/-- The places of a date. -/
def placesOf (d : Date) (h : -4800 ≤ d.marchYear) : Places where
  g := (d.marchYear + 4800) / 400
  c := (d.marchYear + 4800) % 400 / 100
  b := (d.marchYear + 4800) % 100 / 4
  a := (d.marchYear + 4800) % 4
  da := d.marchDay
  g_nonneg := by omega
  c_mem := by omega
  b_mem := by omega
  a_mem := by omega
  da_mem := by rcases d.marchDay_le with h | ⟨h, -⟩ <;> omega
  leap := leap_place d

open Date

section

variable (d : Date)

theorem year_placesOf (h : -4800 ≤ d.marchYear) : (placesOf d h).year = d.marchYear + 4800 := by
  simp only [Places.year, placesOf]
  omega

/-- The first of March of the year 4801 BC is 1753164 days before that of the year 0. -/
theorem index_placesOf (h : -4800 ≤ d.marchYear) : (placesOf d h).index = d.index + 1753164 := by
  simp only [Places.index, placesOf, index, marchStart]
  omega

theorem fields_march : fields (createInt64 (d.marchYear + 4800)) (createInt64 d.marchDay) =
      ⟨createInt64 d.year, createInt64 d.month, createInt64 d.day⟩ := by
  have hp := d.day_pos
  have h0 := d.month_pos
  have h12 := d.month_le
  have hm : ((d.marchDay : ℤ) * 5 + 308) / 153 - 2 = d.marchMonth := by
    have := d.marchMonth_eq
    omega
  have h11 : d.marchMonth ≤ 11 := by
    unfold marchMonth
    split_ifs <;> omega
  have hd : (d.marchDay : ℤ) - (d.marchMonth + 4) * 153 / 5 + 122 + 1 = d.day := by
    unfold marchDay
    omega
  have hmonth : ((d.marchMonth : ℤ) + 2) % 12 + 1 = d.month := by
    unfold marchMonth
    split_ifs <;> omega
  have hyear : d.marchYear + 4800 - 4800 + ((d.marchMonth : ℤ) + 2) / 12 = d.year := by
    unfold Date.marchMonth Date.marchYear
    split_ifs <;> omega
  simp (disch := omega) only [fields, createInt64_add, createInt64_mul, createInt64_sub,
    createInt64_sdiv, createInt64_srem, hm, hd, hmonth, hyear]

/-- The code computes the date of its day number. -/
theorem date_index (h : -4800 ≤ d.marchYear) (hb : d.index + 1753164 < 2 ^ 62) :
    date (createInt64 (d.index + 1753164)) =
      ⟨createInt64 d.year, createInt64 d.month, createInt64 d.day⟩ := by
  have hp := index_placesOf d h
  have hmy := marchYear_places (placesOf d h) (by omega)
  rw [hp, year_placesOf] at hmy
  rw [date, hmy]
  exact fields_march d

end

/-! ## The fields of a timestamp -/

/-- The day of a timestamp, as the code counts it: the quotient is unsigned. -/
def day (v : BitVec 64) : ℕ := v.toNat / 86400000

theorem day_le : day v ≤ 213503982334 := by
  unfold day
  omega

theorem julian_eq : julian v = createInt64 (day v + 2440588) := by
  have hq : v.udiv (createInt64 msPerDay) = createInt64 (day v) := by
    apply eq_of_toNat_eq
    have hd := day_le v
    have hm : (createInt64 msPerDay).toNat = 86400000 := by decide
    rw [udiv_eq, toNat_udiv, hm, createInt64, ofInt_natCast,
      toNat_ofNat, Nat.mod_eq_of_lt (by omega)]
    rfl
  rw [julian, hq, epochJulian, createInt64_add]

theorem civil_year_mem {n : ℕ} (h : n ≤ 213503982334) :
    1969 ≤ (civil n).marchYear ∧ 0 < (civil n).year ∧ (civil n).year < 2 ^ 31 := by
  have hi := civil_index n
  have hd := (civil n).marchDay_le
  have hm : 1969 ≤ (civil n).marchYear ∧ (civil n).marchYear < 2 ^ 30 := by
    unfold index marchStart at hi
    omega
  unfold Date.marchYear at hm ⊢
  split_ifs at hm ⊢ <;> omega

theorem date_eq : date (julian v + createInt64 32044) =
      ⟨createInt64 (civil (day v)).year, createInt64 (civil (day v)).month,
        createInt64 (civil (day v)).day⟩ := by
  have hn := day_le v
  have hi := civil_index (day v)
  obtain ⟨hy, -⟩ := civil_year_mem hn
  have hj : julian v + createInt64 32044 = createInt64 ((civil (day v)).index + 1753164) := by
    rw [julian_eq, createInt64_add, hi, add_assoc, add_assoc]
    rfl
  rw [hj]
  exact date_index _ (by omega) (by omega)

theorem toInt_sExtOrTrunc {x : ℤ} (h : -2 ^ 31 ≤ x) (h' : x < 2 ^ 31) :
    (sExtOrTrunc (createInt64 x)).toInt = x := by
  rw [sExtOrTrunc, toInt_signExtend, toInt_createInt64 (by omega) (by omega)]
  exact bmod_eq_of_le (by simp; omega) (by simp; omega)

variable {v : BitVec 64}

theorem read_eq {u : ExtractUnit} (typed : createReturnType u = .ok 32)
    {x : BitVec 32} (h : extract u v = .ok x) : read u typed v = .ok x.toInt := by
  simp only [read, visit, h]
  rfl

section

variable (v : BitVec 64)

theorem read_year : read .year rfl v = .ok (civil (day v)).year := by
  obtain ⟨-, h0, h31⟩ := civil_year_mem (day_le v)
  have he : extract .year v = .ok (sExtOrTrunc (createInt64 (civil (day v)).year)) := by
    simp only [extract, date_eq, getYearAbsOffset, getYearDiv, bind, Except.bind, pure,
      Except.pure, Int.neg_zero, ite_self]
    rw [createInt64_add, createInt64_sdiv (by omega) (by omega) (by omega) (by omega),
      Int.add_zero, Int.ediv_one]
  rw [read_eq rfl he, toInt_sExtOrTrunc (by omega) h31]

theorem read_month : read .month rfl v = .ok (civil (day v)).month := by
  have h12 := (civil (day v)).month_le
  have he : extract .month v = .ok (sExtOrTrunc (createInt64 (civil (day v)).month)) := by
    simp only [extract, date_eq]
  rw [read_eq rfl he, toInt_sExtOrTrunc (by omega) (by omega)]

theorem read_dayOfMonth : read .dayOfMonth rfl v = .ok (civil (day v)).day := by
  have hd := (civil (day v)).day_le
  have he : extract .dayOfMonth v = .ok (sExtOrTrunc (createInt64 (civil (day v)).day)) := by
    simp only [extract, date_eq]
  have h31 := daysInMonth_le (civil (day v)).year (civil (day v)).month
  rw [read_eq rfl he, toInt_sExtOrTrunc (by omega) (by omega)]

theorem read_quarter : read .quarter rfl v = .ok (quarter (civil (day v)).month) := by
  have h0 := (civil (day v)).month_pos
  have h12 := (civil (day v)).month_le
  have he : extract .quarter v =
      .ok (sExtOrTrunc (createInt64 (quarter (civil (day v)).month))) := by
    simp (disch := omega) only [extract, date_eq, createInt64_add, createInt64_udiv]
    unfold quarter
    congr 3
    omega
  have hq : quarter (civil (day v)).month ≤ 4 := by
    unfold quarter
    omega
  rw [read_eq rfl he, toInt_sExtOrTrunc (by omega) (by omega)]

theorem read_dayOfWeek : read .dayOfWeek rfl v = .ok (weekday (day v)) := by
  have hn := day_le v
  have he : extract .dayOfWeek v = .ok (sExtOrTrunc (createInt64 (weekday (day v)))) := by
    simp (disch := omega) only [extract, julian_eq, createInt64_add, createInt64_floorMod]
    rw [weekday_eq]
    congr 3
    omega
  have hw := weekday_eq (day v)
  rw [read_eq rfl he, toInt_sExtOrTrunc (by omega) (by omega)]

theorem toNat_vtime : ((vtime v).toNat : ℤ) = v.toInt % 86400000 := by
  have hv : createInt64 v.toInt = v := ofInt_toInt
  have hd : msPerDay = 86400000 := rfl
  rw [vtime, ← hv, createInt64_floorMod v.le_toInt v.toInt_lt (by decide) (by decide), hv,
    createInt64, toNat_setWidth, toNat_ofInt, hd]
  omega

theorem read_word {u : ExtractUnit} {typed : createReturnType u = .ok 32} {x : BitVec 32} {i : ℤ}
    (h : extract u v = .ok (sExtOrTrunc x)) (hi : x.toNat = i) (h31 : i < 2 ^ 31) :
    read u typed v = .ok i := by
  rw [read_eq typed h, sExtOrTrunc, signExtend_eq, toInt_eq_toNat_of_lt (by omega), hi]

/-- **The time of day is right for every timestamp**, before 1970 too, where the date is not. -/
theorem read_time : read .hour rfl v = .ok (v.toInt / 3600000 % 24) ∧
    read .minute rfl v = .ok (v.toInt / 60000 % 60) ∧
    read .second rfl v = .ok (v.toInt / 1000 % 60) := by
  obtain ⟨h60, hs, hm, hh⟩ : (createInt32 60).toNat = 60 ∧ (createInt32 msPerS).toNat = 1000 ∧
      (createInt32 msPerM).toNat = 60000 ∧ (createInt32 msPerH).toNat = 3600000 := by decide
  refine ⟨read_word v rfl ?_ (by omega), read_word v rfl ?_ (by omega),
    read_word v rfl ?_ (by omega)⟩
  · rw [toNat_udiv, hh, natCast_ediv, toNat_vtime]
    omega
  · rw [toNat_umod, toNat_udiv, h60, hm, natCast_emod, natCast_ediv, toNat_vtime]
    omega
  · rw [toNat_umod, toNat_udiv, h60, hs, natCast_emod, natCast_ediv, toNat_vtime]
    omega

end

/-- The day of a timestamp from 1970 on is the one the calendar gives it. -/
theorem day_of_nonneg (h : 0 ≤ v.toInt) : day v = (v.toInt / 86400000).toNat := by
  have hv : v.toInt = v.toNat := by
    rw [toInt_eq_toNat_cond] at h ⊢
    split_ifs at h ⊢ <;> omega
  rw [hv, day]
  omega

theorem extract_calendar_fields (v : BitVec 64) (n : ℕ) (h : 0 ≤ v.toInt) (hn : v.toInt / 86400000 = n) :
    read .year rfl v = .ok (civil n).year ∧ read .month rfl v = .ok (civil n).month ∧
    read .dayOfMonth rfl v = .ok (civil n).day ∧ read .quarter rfl v = .ok (quarter (civil n).month) ∧
    read .dayOfWeek rfl v = .ok (weekday n) := by
  have hd : day v = n := by rw [day_of_nonneg h, hn, toNat_natCast]
  rw [← hd]
  exact ⟨read_year v, read_month v, read_dayOfMonth v, read_quarter v, read_dayOfWeek v⟩

theorem extract_calendar_fields_march :
    read .month rfl 5097600000 = .ok 3 ∧ read .dayOfMonth rfl 5097600000 = .ok 1 ∧
      read .dayOfWeek rfl 5097600000 = .ok 1 := by
  obtain ⟨-, hm, hd, -, hw⟩ := extract_calendar_fields 5097600000 59 (by decide) (by decide)
  exact ⟨hm.trans (by decide +kernel), hd.trans (by decide +kernel), hw.trans (by decide +kernel)⟩

/-! ## Order -/

/-- The date that the three expressions read, in the order of years, months and days. -/
def yearMonthDay (v : BitVec 64) : Except String (ℤ ×ₗ ℤ ×ₗ ℤ) := do
  let y ← read .year rfl v
  let m ← read .month rfl v
  let d ← read .dayOfMonth rfl v
  return toLex (y, toLex (m, d))

theorem yearMonthDay_eq (v : BitVec 64) : yearMonthDay v = .ok (civil (day v)).key := by
  simp only [yearMonthDay, read_year, read_month, read_dayOfMonth]
  rfl

/-- The date does not decrease from `v` to `v + 1`, and both the date and the day of the week
advance from `v` to the same time of the next day. -/
def OrderConsistent (v : BitVec 64) : Prop :=
  ∃ t t₁ t₂, ∃ w : ℕ, yearMonthDay v = .ok t ∧ yearMonthDay (v + 1) = .ok t₁ ∧
    yearMonthDay (v + 86400000) = .ok t₂ ∧ t ≤ t₁ ∧ t < t₂ ∧
    read .dayOfWeek rfl v = .ok w ∧ read .dayOfWeek rfl (v + 86400000) = .ok (nextWeekday w)

/-- In the unsigned order the date is consistent wherever the next day does not wrap. -/
theorem orderConsistent_of_no_wrap (h : v.toNat + 86400000 < 2 ^ 64) : OrderConsistent v := by
  have h1 : day v ≤ day (v + 1) := by
    have hv : (v + 1).toNat = v.toNat + 1 := by
      exact Nat.mod_eq_of_lt (by simp; omega)
    unfold day
    omega
  have h2 : day (v + 86400000) = day v + 1 := by
    have hv : (v + 86400000).toNat = v.toNat + 86400000 := by
      rw [BitVec.toNat_add]
      exact Nat.mod_eq_of_lt (by simp; omega)
    unfold day
    omega
  refine ⟨_, _, _, weekday (day v), yearMonthDay_eq v, yearMonthDay_eq _, yearMonthDay_eq _,
    civil_key_strictMono.monotone h1, civil_key_strictMono (by omega), read_dayOfWeek v, ?_⟩
  rw [read_dayOfWeek, h2, weekday_succ]

/-- The day before 1970 lies at the end of the unsigned range, and the next one at its
beginning. -/
theorem not_orderConsistent (h : -86400000 ≤ v.toInt) (h' : v.toInt < 0) : ¬ OrderConsistent v := by
  rintro ⟨t, t₁, t₂, w, ht, ht₁, ht₂, -, hlt₂, -, -⟩
  have hc := toInt_eq_toNat_cond v
  rw [yearMonthDay_eq] at ht ht₂
  cases ht
  cases ht₂
  have hd := civil_key_strictMono.lt_iff_lt.mp hlt₂
  have hv : (v + 86400000).toNat < 86400000 := by
    rw [BitVec.toNat_add]
    show (v.toNat + 86400000) % 2 ^ 64 < 86400000
    split_ifs at hc <;> omega
  unfold day at hd
  split_ifs at hc <;> omega

/-- The date is consistent exactly where the timestamp and the one of the next day have the
same sign. -/
theorem extract_order_consistent (v : BitVec 64) (h : v.toInt + 86400000 < 2 ^ 63) :
    OrderConsistent v ↔ 0 ≤ v.toInt ∨ v.toInt < -86400000 := by
  constructor
  · intro hc
    by_contra hn
    exact not_orderConsistent (by omega) (by omega) hc
  · intro hs
    apply orderConsistent_of_no_wrap
    have hc := toInt_eq_toNat_cond v
    split_ifs at hc <;> omega

theorem extract_order_consistent_epoch : OrderConsistent 0 :=
  (extract_order_consistent 0 (by decide)).mpr (by decide)

/-- A millisecond before 1970 it is the year 584556019. -/
theorem date_before_epoch : yearMonthDay (-1) = .ok (toLex (584556019, toLex (4, 3))) ∧
    yearMonthDay 0 = .ok (toLex (1970, toLex (1, 1))) ∧ ¬ OrderConsistent (-1) :=
  ⟨by decide, by decide, not_orderConsistent (by decide) (by decide)⟩

/-! ## The day of the year -/

/-- One plus the number of days from the first of January of the year that is read to the day
of the timestamp. -/
def DayOfYearCorrect (v : BitVec 64) : Prop :=
  ∃ (y : ℤ) (k : ℕ), read .year rfl v = .ok y ∧
    Date.next^[k] (newYear y) = civil (v.toInt / 86400000).toNat ∧
    read .dayOfYear rfl v = .ok (1 + k) ∧ k ≤ 365 ∧ (k = 365 → isLeap y)

/-- The code returns the Julian day of the first of January instead of the distance to it,
cut to 32 bits. Years are some 365 days long, so in every 2^32 days there is one year whose
first day is cut to a number of a day in that year: the years, the numbers of these days in
the year, and since 1970. -/
def accidents : List (ℤ × ℤ × ℤ) :=
  [(11754509, 18, 4292526743), (23513731, 363, 8587494729), (35272952, 343, 12882461985),
    (47032173, 324, 17177429243), (58791394, 304, 21472396499), (70550615, 283, 25767363753),
    (82309836, 263, 30062331009), (94069057, 244, 34357298267), (105828278, 224, 38652265523),
    (117587499, 204, 42947232779), (129346720, 183, 47242200033), (141105941, 164, 51537167291),
    (152865162, 144, 55832134547), (164624383, 124, 60127101803), (176383604, 104, 64422069059),
    (188142825, 85, 68717036317), (199902046, 65, 73012003573), (211661267, 45, 77306970829),
    (223420488, 25, 81601938085), (235179709, 5, 85896905341), (246938931, 350, 90191873327),
    (258698152, 330, 94486840583), (270457373, 311, 98781807841), (282216594, 291, 103076775097)]

/-- What makes a row of the table one: the first day of the year is cut to the number of the
day in the year, and that day is the day since 1970. -/
theorem accidents_spec (i : Fin accidents.length) : let r := accidents.get i
    (newYear r.1).index + 1721120 = 2 ^ 32 * (i + 1 : ℤ) + r.2.1 ∧
    r.2.2 + 719468 = (newYear r.1).index + r.2.1 - 1 ∧ 5 ≤ r.2.1 ∧ r.2.1 ≤ 363 := by
  revert i
  decide

theorem read_dayOfYear (v : BitVec 64) : read .dayOfYear rfl v =
      .ok (((newYear (civil (day v)).year).index + 1721120).bmod (2 ^ 32)) := by
  obtain ⟨-, h0, h31⟩ := civil_year_mem (day_le v)
  have hi := index_newYear (civil (day v)).year
  generalize hy : (civil (day v)).year = y at *
  have hj : 365 * (y + 4799) + (y + 4799) / 4 - (y + 4799) / 100 + ((y + 4799) / 400 - 31738)
      = (newYear y).index + 1721120 := by
    rw [hi, marchStart]
    omega
  have he : extract .dayOfYear v = .ok (sExtOrTrunc (createInt64 ((newYear y).index + 1721120))) := by
    simp (disch := omega) only [extract, date_eq, hy, createInt64_add, createInt64_mul,
      createInt64_sdiv, createInt64_sub, hj]
  rw [read_eq rfl he, sExtOrTrunc, toInt_signExtend, toInt_createInt64]
  · rfl
  · rw [← hj]; omega
  · rw [← hj]; omega

/-- The day is the right one when the cut happens to be. -/
theorem dayOfYearCorrect_iff (h : 0 ≤ v.toInt) {i : ℤ} (hi : (newYear (civil (day v)).year).index = i) :
    DayOfYearCorrect v ↔ (i + 1721120).bmod (2 ^ 32) = 1 + (day v + 719468 - i) := by
  obtain ⟨hle, hub⟩ := (civil (day v)).index_year_bounds
  have hc := civil_index (day v)
  rw [hi] at hle hub
  unfold DayOfYearCorrect
  rw [← day_of_nonneg h, read_year, read_dayOfYear, hi]
  constructor
  · rintro ⟨y, k, hy, hk, hr, -⟩
    cases hy
    have hk' := (newYear (civil (day v)).year).index_iterate k
    rw [hk, hi] at hk'
    rw [Except.ok.injEq] at hr
    omega
  · intro hr
    have hk : ((day v + 719468 - i).toNat : ℤ) = day v + 719468 - i := toNat_of_nonneg (by omega)
    refine ⟨_, (day v + 719468 - i).toNat, rfl, ?_, ?_, by omega, ?_⟩
    · apply index_injective
      rw [index_iterate, hi]
      omega
    · rw [hr, hk]
    · intro h365
      rcases hub with h364 | ⟨-, hl⟩
      · omega
      · exact hl

/-- The day of the year is right on the days of `accidents`, and on no other one. -/
theorem extract_day_of_year (v : BitVec 64) (h : 0 ≤ v.toInt) :
    DayOfYearCorrect v ↔ v.toInt / 86400000 ∈ accidents.map fun r => r.2.2 := by
  have hd := day_of_nonneg h
  have hlt := toInt_lt (x := v)
  obtain ⟨hle, hub⟩ := (civil (day v)).index_year_bounds
  have hc := civil_index (day v)
  have hclose (y : ℤ) (h₁ : (newYear (civil (day v)).year).index < (newYear y).index + 365)
      (h₂ : (newYear y).index < (newYear (civil (day v)).year).index + 365) :
      (civil (day v)).year = y := by
    rw [index_newYear, index_newYear] at h₁ h₂
    have := eq_of_marchStart_close (x := (civil (day v)).year - 1) (y := y - 1) (by omega) (by omega)
    omega
  rw [dayOfYearCorrect_iff h rfl]
  constructor
  · intro hb
    -- the first day of the year is `q` times 2^32 and the number of a day: the row of `q`
    have hq := bmod_add_bdiv ((newYear (civil (day v)).year).index + 1721120) (2 ^ 32)
    rw [hb] at hq
    generalize bdiv ((newYear (civil (day v)).year).index + 1721120) (2 ^ 32) = q at hq
    obtain ⟨i, hi⟩ : ∃ i : Fin accidents.length, (i + 1 : ℤ) = q :=
      ⟨⟨(q - 1).toNat, by show _ < 24; omega⟩, by simp; omega⟩
    obtain ⟨h1, h2, h3, h4⟩ := accidents_spec i
    rw [hi] at h1
    have hy := hclose (accidents.get i).1 (by omega) (by omega)
    rw [hy] at hq
    refine List.mem_map.mpr ⟨accidents.get i, List.get_mem _ _, ?_⟩
    omega
  · intro hm
    obtain ⟨r, hr, hn⟩ := List.mem_map.mp hm
    obtain ⟨i, rfl⟩ := List.get_of_mem hr
    obtain ⟨h1, h2, h3, h4⟩ := accidents_spec i
    have hy := hclose (accidents.get i).1 (by omega) (by omega)
    have hcut : (2 ^ 32 * (i + 1 : ℤ) + (accidents.get i).2.1).bmod (2 ^ 32)
        = (accidents.get i).2.1 := by
      rw [bmod_def]
      split_ifs <;> omega
    rw [hy, h1, hcut]
    omega

theorem extract_day_of_year_once : DayOfYearCorrect (4292526743 * 86400000) :=
  (extract_day_of_year (4292526743 * 86400000) (by decide)).mpr (by decide)

/-- On the first day of 1970 the code returns its Julian day number. -/
theorem day_of_year_is_julian : read .dayOfYear rfl 0 = .ok 2440588 ∧ ¬ DayOfYearCorrect 0 := by
  refine ⟨by decide, ?_⟩
  rw [dayOfYearCorrect_iff (by decide) rfl]
  decide

end Proteus.ExtractDate
