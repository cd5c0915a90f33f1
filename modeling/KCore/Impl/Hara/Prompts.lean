import KCore.Impl.Hara.Tools
import KCore.Lib.JsonIndent

/-!
# The prompts with earlier results (`Hara_Assistant_tool.py`, `exposure_assessment_tool.py`)

The prompts of the three steps that pass tables on, by what is put into them. The first two cut
the text of a table or of the database at a length; the last one cuts and says so.
-/

namespace KCore.Hara

open Text

/-! ## Step 3 -/

/-- The categories of basic scenarios in `operational_situations.json`. -/
structure SituationsData (N : Type*) where
  basicScenarios : Dict Str (List (Json N))

/-- `json.dumps(situations_data["basic_scenarios"], indent=2)`. -/
def SituationsData.dumps {N : Type*} [Numeral N] (data : SituationsData N) : Str :=
  Json.dumpsIndentBy 2 0 (.obj (data.basicScenarios.entries.map fun e => (e.1, .arr e.2)))

structure ExposurePrompt where
  itemName : Str
  hazopAnalysis : Str
  basicScenarios : Str

def exposureInstructions : Str :=
  "

**CRITICAL RULES:**

1. **Exposure Combination Rule (ISO 26262):**
   - Combined Exposure = MINIMUM exposure level among selected basic scenarios
   - Example: Highway (E4) + Heavy Rain (E2) + Night (E3) → Combined = E2
   - Rationale: Combined scenarios represent intersection of conditions (less frequent than individual conditions)

2. **Scenario Selection Criteria:**
   - Select 2-4 basic operational situations that are DIRECTLY relevant to when/where the hazard occurs
   - Scenarios must be logically compatible (can happen simultaneously)
   - Consider the malfunction and hazardous event context

**Your Task:**

For EACH hazard in the HAZOP table, perform exposure assessment by:

1. Analyzing the hazard context (malfunction + hazardous event)
2. Selecting 2-4 relevant basic operational situations from the database
3. Combining them into a specific driving scenario
4 * IMPORTANT*: E1 is the minimum value, E4 is the maximum ones 
4. *CRITICAL ** Calculating combined Exposure using MIN rule. (eg. if driving scenario has (E4, E3), the exposure is E3 (the minimum one))
5. Providing rationale for the selection and exposure level

**CRITICAL OUTPUT FORMAT:**

Generate ONLY a markdown table. DO NOT wrap it in code blocks or markdown fences.
DO NOT include ```markdown or ``` markers.
Output the raw table directly.

**Table Columns:**
| Hazard ID | Malfunction | Hazardous Event | Selected Basic Scenarios | Combined Driving Scenario | Exposure (E) | Rationale |

**Column Specifications:**

- **Hazard ID**: Copy from HAZOP (HAZ-001, HAZ-002, etc.)
- **Malfunction**: Brief malfunction description from HAZOP (max 10 words)
- **Hazardous Event**: Hazardous event from HAZOP (max 10 words)
- **Selected Basic Scenarios**: List scenario IDs with individual exposures
  Format: \"URB-001 (E4), ENV-002 (E2), ENV-006 (E3)\"
- **Combined Driving Scenario**: Descriptive name of combined scenario
  Example: \"Urban traffic in heavy rain at night\"
- **Exposure (E)**: Combined exposure level (E0-E4)
  Must be MINIMUM of selected scenarios
- **Rationale**: Brief explanation of scenario selection and exposure calculation
  Example: \"MIN(E4, E2, E3) = E2. Combination of urban driving with adverse weather reduces frequency.\"

**Example Format (DO NOT include this in your output, just follow the format):**

| HAZ-001 | No cell voltage monitoring | Battery overcharge and thermal runaway | SPC-003 (E2), ENV-007 (E2) | Fast charging in extreme heat | E2 | MIN(E2, E2) = E2. Fast charging in hot conditions occurs occasionally |

**Important:**
- Be SPECIFIC with driving scenarios (not generic)
- Ensure exposure calculation is correct: Combined E = MIN(individual E values)
- Keep each cell concise (max 10-15 words except rationale)
- Output ONLY the table, no explanations before or after
- NO code blocks, NO markdown fences, just the raw table

**Begin table output now:**
".toList

def ExposurePrompt.render (p : ExposurePrompt) : Str :=
  "You are a Functional Safety Engineer performing Exposure assessment for HARA per ISO 26262-3:2018 Clause 6.4.4.\n\n**System:** ".toList ++
    p.itemName ++ "\n\n**HAZOP Analysis Results (with Severity already assessed):**\n".toList ++ p.hazopAnalysis ++
    "\n\n**Available Basic Operational Situations Database:**\n".toList ++ p.basicScenarios ++ exposureInstructions

def assessExposurePrompt {N : Type*} [Numeral N] (m : Memory) (data : SituationsData N) : ExposurePrompt where
  itemName := m.haraItemName.getD "the system".toList
  hazopAnalysis := text m.hazopAnalysis
  basicScenarios := data.dumps.take 8000

/-! ## Step 4 -/

structure TablePrompt where
  itemName : Str
  hazopAnalysis : Str
  exposureAssessments : Str

def tableInstructions : Str :=
  "

**CRITICAL TASK:** Generate a complete HARA table with **ALL 12 COLUMNS**. Do not omit any column.

---

## REQUIRED TABLE FORMAT (MANDATORY - ALL 12 COLUMNS):

| Hazard ID | Function | Malfunctioning Behavior | Hazardous Event | Operational Situation | Severity (S) | Exposure (E) | Controllability (C) | ASIL | Safety Goal | Safe State | FTTI |

---

## COLUMN-BY-COLUMN INSTRUCTIONS:

### Columns 1-5: Copy from HAZOP Analysis
- **Hazard ID**: HAZ-001, HAZ-002, etc. (copy exactly)
- **Function**: Copy from HAZOP
- **Malfunctioning Behavior**: Copy from HAZOP
- **Hazardous Event**: Copy from HAZOP
- **Operational Situation**: Copy from Exposure Assessment (driving scenario)

### Column 6: Severity (S) - COPY FROM HAZOP
- **CRITICAL**: Extract S0/S1/S2/S3 from HAZOP table
- **Do NOT calculate** - this was already assessed in Step 2
- **Copy the exact value** (e.g., \"S3\", \"S2\")

### Column 7: Exposure (E) - COPY FROM EXPOSURE ASSESSMENT
- Extract E0/E1/E2/E3/E4 from Exposure Assessment table
- Match by Hazard ID
- Note: E4 will map to E3 for ASIL calculation

### Column 8: Controllability (C) - NEW ASSESSMENT
Consider the operational situation (driving scenario) to assess:

- **C0**: >99% controllable (clear warning, simple action, >3s reaction time)
- **C1**: >99% controllable with minor effort (adequate warning, 1-3s reaction time)
- **C2**: >90% controllable (skilled action needed, 0.5-1s reaction time)
- **C3**: <90% controllable (no warning, <0.5s reaction, or physically impossible)

**Context matters:**
- High-speed + adverse weather → C3 (difficult to control)
- Low-speed + normal conditions → C0 or C1 (easy to control)
- City : low speed
- Country road : medium speed
- Highway : high speed 

### Column 9: ASIL - CALCULATE
Use ISO 26262-3:2018 Table 4:
- Input: S (from HAZOP), E (from Exposure), C (just assessed)
- Output: QM, A, B, C, or D
- Verify calculation is correct

### Column 10: Safety Goal - FORMULATE
**CRITICAL FORMAT RULES:**
- ✅ Start with: Avoid, Prevent, Ensure, Maintain, Mitigate, Limit
- ❌ DO NOT write: \"The [system] shall...\" or \"System shall...\"
- Result-oriented at vehicle level
- Keep concise (one sentence)
- Do NOT include ASIL, Safe State, or FTTI here

**Examples:**
- ✅ \"Avoid battery overcharge to prevent thermal runaway during charging\"
- ✅ \"Prevent unintended airbag deployment during normal driving\"
- ✅ \"Ensure driver visibility through windscreen in all weather\"
- ❌ \"The BMS shall prevent overcharge...\" (WRONG)

### Column 11: Safe State - DEFINE
Specific system condition ensuring safety:
- Measurable and verifiable
- Examples: \"Battery isolated from HV bus\", \"Airbag armed but not deployed\", \"Vehicle immobilized with parking brake\"

### Column 12: FTTI - SPECIFY
Fault-Tolerant Time Interval:
- Format: \"50ms\", \"100ms\", \"500ms\", \"1s\", \"N/A\"
- Guidelines:
  * ASIL D + high-speed: 50-200ms
  * ASIL D + low-speed: 100-500ms
  * ASIL C: 100-500ms
  * ASIL B: 500ms-2s or N/A
  * ASIL A/QM: Usually N/A

---

## COMPLETE EXAMPLE (ALL 12 COLUMNS):

| HAZ-001 | Monitor battery cell voltage | No voltage monitoring | Battery overcharge leading to thermal runaway and fire | Fast charging in extreme heat | S3 | E2 | C3 | ASIL D | Avoid battery overcharge to prevent thermal runaway during charging operations | Battery isolated from charger, thermal management active | 100ms |

---

## GENERATION INSTRUCTIONS:

1. **Start with header row** (copy the 12-column format above)
2. **For each hazard** in HAZOP table:
   - Extract columns 1-5 from HAZOP and Exposure tables
   - **COPY Severity (S)** from HAZOP (do not recalculate)
   - **COPY Exposure (E)** from Exposure Assessment
   - **ASSESS Controllability (C)** based on operational situation
   - **CALCULATE ASIL** using S, E, C
   - **FORMULATE Safety Goal** (start with action verb)
   - **DEFINE Safe State** (specific condition)
   - **SPECIFY FTTI** (based on ASIL and dynamics)

3. **Verify each row has exactly 12 columns**

4. **Do NOT omit Severity (S)** - this is critical for ASIL calculation

**Generate the complete 12-column HARA table now:**
".toList

def TablePrompt.render (p : TablePrompt) : Str :=
  "You are a Functional Safety Engineer creating the final HARA table per ISO 26262-3:2018 Clause 6.\n\n**System:** ".toList ++
    p.itemName ++ "\n\n**Available Data:**\n\n**HAZOP Analysis (with Severity S):**\n".toList ++ p.hazopAnalysis ++
    "\n\n**Exposure Assessments (with Driving Scenarios and E):**\n".toList ++ p.exposureAssessments ++
    tableInstructions

def generateHaraTablePrompt (m : Memory) : TablePrompt where
  itemName := m.haraItemName.getD unknownItem
  hazopAnalysis := (text m.hazopAnalysis).take 5000
  exposureAssessments := (text m.exposureAssessments).take 5000

/-! ## Step 5 -/

structure GoalsPrompt where
  itemName : Str
  haraTable : Str

def goalsInstructions : Str :=
  "

# Your Task

For each hazard with ASIL A, B, C, or D, derive a complete detailed safety goal following ISO 26262 guidelines.

# Safety Goal Requirements (ISO 26262-3:2018)

1. **Result-Oriented**: Focus on WHAT to achieve, not HOW
2. **Directly Linked**: Address the specific hazardous event
3. **ASIL Designation**: Include ASIL level
4. **Safe State**: Specify safe condition to reach
5. **FTTI**: Include when time-critical
6. **Clear Language**: Unambiguous terminology

# Safety Goal Format

**Template:**
[Action Verb] [hazardous event description] [during operational context]. (ASIL X)

**Action Verbs:** Avoid, Ensure, Maintain, Limit

**Format Rules:**
- Start DIRECTLY with action verb (capitalized)
- NO \"The [system] shall\"
- End with ASIL in parentheses

**Example Analysis:**

**Hazardous Event:** \"Cell overcharge leading to thermal runaway and fire\"

**Poor Safety Goal (too technical):**
❌ \"The BMS shall monitor cell voltage every 10ms and open the main contactor within 50ms if voltage exceeds 4.25V per cell\"
*Why poor: Specifies HOW (monitoring rate, voltage threshold, timing) instead of WHAT*

**Good Safety Goal (result-oriented at vehicle level):**
✅ \"Avoid unintended wiper stop, avoid cell thermal runaway, avoid unintende acceleration (ASIL D, Safe State: Battery electrically isolated from charger, FTTI: 100ms)\"
*Why good: Focuses on preventing the hazard at vehicle level, includes ASIL, safe state, and FTTI*

**More Safety Goal Examples (Correct Format):**

1. \"Avoid loss of braking force during highway driving. (ASIL D)\"
2. \"Prevent steering system lockup during lane changes. (ASIL D)\"
3. \"Ensure battery isolation in case of internal short circuit. (ASIL D)\"
4. \"Maintain safe cell voltage range during all charging operations. (ASIL C)\"
5. \"Limit battery power output to prevent motor overspeed. (ASIL C)\"
6. \"Avoid unintended airbag deployment during normal driving. (ASIL C)\"
7. \"Prevent loss of communication between safety-critical ECUs. (ASIL B)\"
8. \"Ensure wiper activation when requested by driver. (ASIL B)\"
9. \"Maintain visibility through windscreen during rain. (ASIL B)\"
10. \"Avoid false fault warnings to driver. (ASIL A)\"

**Your Task:**
Analyze the provided hazardous event and derive a complete safety goal.

**Provide:**
1. **Safety Goal Statement:** [The complete safety goal following the template]
2. **ASIL Justification:** [Why this ASIL was assigned - reference S/E/C values]
3. **Safe State Description:** [Detailed description of the safe state]
4. **FTTI Rationale:** [Why this time interval was chosen, if applicable]
5. **Assumptions:** [Any assumptions made about system behavior or operational context]

**Output Format:**

---
## Safety Goal for: [Hazardous Event Summary]

**Safety Goal:**
[Complete safety goal statement]

**ASIL:** [X] 
**Justification:** [S/E/C values and rationale]

**Safe State:** 
[Detailed description of safe state]

**Fault-Tolerant Time Interval (FTTI):** [X ms/seconds] *(if applicable)*
**Rationale:** [Why this FTTI]

**Assumptions:**
- [Assumption 1]
- [Assumption 2]
...

**Verification Criteria:**
[How this safety goal can be verified/validated]

---

Derive the safety goal now:
".toList

def GoalsPrompt.render (p : GoalsPrompt) : Str :=
  "You are a Functional Safety Engineer deriving Safety Goals per ISO 26262-3:2018 Clause 6.4.6.\n\n**System:** ".toList ++
    p.itemName ++ "\n\n# HARA Table\n\n".toList ++ p.haraTable ++ goalsInstructions

/-- `hara_truncated`. -/
def haraTruncated (haraTable : Str) : Str :=
  haraTable.take 8000 ++ if haraTable.length > 8000 then "\n\n[... table truncated ...]".toList else []

def deriveSafetyGoalsPrompt (m : Memory) : GoalsPrompt where
  itemName := m.haraItemName.getD unknownItem
  haraTable := haraTruncated (text m.haraTable)

end KCore.Hara
