import SettingsSweep.Main
import SettingsSweep.Proofs.Axis.EmptyRows
import SettingsSweep.Proofs.Axis.FiniteValues
import SettingsSweep.Proofs.Axis.RangeLimit
import SettingsSweep.Proofs.Axis.Resolution
import SettingsSweep.Proofs.Command.Grouping
import SettingsSweep.Proofs.Command.Project
import SettingsSweep.Proofs.Command.ShownAxis
import SettingsSweep.Proofs.Config.Store
import SettingsSweep.Proofs.Document.Comments
import SettingsSweep.Proofs.Document.DottedKeys
import SettingsSweep.Proofs.Document.Listing
import SettingsSweep.Proofs.Document.Targets
import SettingsSweep.Proofs.Naming.Placeholders
import SettingsSweep.Proofs.Scalar.Encodings
import SettingsSweep.Proofs.Sweep.Clock
import SettingsSweep.Proofs.Sweep.Coercion
import SettingsSweep.Proofs.Sweep.CommonSettings
import SettingsSweep.Proofs.Sweep.Distinct
import SettingsSweep.Proofs.Sweep.Duplicates
import SettingsSweep.Proofs.Sweep.EffectiveBase
import SettingsSweep.Proofs.Sweep.Failure
import SettingsSweep.Proofs.Sweep.ImageFlag
import SettingsSweep.Proofs.Sweep.Keyframes
import SettingsSweep.Proofs.Command.Written
import SettingsSweep.Proofs.Naming.Search
